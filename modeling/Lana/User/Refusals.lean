import Lana.User.Effects

/-!
# Refused commands

Each handler of `xt_user.c` holds a reference to every block it has looked up and gives it back
when it gives up.  The exception is `userctl_replace`: a block that was found but has no factory
keeps the reference (`refused_counts`).
-/

namespace Lana

open State

/-- A message to `__userctl_rcv`, with the outcomes of the allocations. -/
inductive UserCmd where
  | add (name : Name) (type : CStr) (al : Alloc)
  | set (name : Name) (opt : CStr)
  | rm (name : Name)
  | replace (name1 name2 : Name) (dropPriv : Bool) (al : Alloc)
  | subscribe (name1 name2 : Name) (al : Alloc)
  | unsubscribe (name1 name2 : Name)
  | bind (name1 name2 : Name) (al : Alloc)
  | unbind (name1 name2 : Name)

namespace UserCmd

/-- `__userctl_rcv`. -/
def exec (s : State) : UserCmd → Ret × State
  | .add name type al => userctlAdd al s name type
  | .set name opt => userctlSet s name opt
  | .rm name => userctlRemove s name
  | .replace name1 name2 dropPriv al => userctlReplace al s name1 name2 dropPriv
  | .subscribe name1 name2 al => userctlSubscribe al s name1 name2
  | .unsubscribe name1 name2 => userctlUnsubscribe s name1 name2
  | .bind name1 name2 al => userctlBind al s name1 name2
  | .unbind name1 name2 => userctlUnbind s name1 name2

end UserCmd

/-- The first CPU accepts the event, so that a port is written. -/
def takesEvent (s : State) (fb : Addr) (ev : FbEvent) : Prop :=
  ((s.ops fb).event ev (s.online.cpus.take 1) (s.privateData fb)).1 = .ok

/-- Both names are known. -/
def Found (s : State) (name1 name2 : Name) (fb1 fb2 : Addr) : Prop :=
  s.lookup name1 = some fb1 ∧ s.lookup name2 = some fb2

namespace UserCmd

/-- The handler gets as far as its first write to a table, a port or a list. -/
def Writes (s : State) : UserCmd → Prop
  | .add name type al => (userctlAdd al s name type).2.fblmap ≠ s.fblmap
  | .set _ _ => False
  | .rm name => ∃ fb f, s.lookup name = some fb ∧ s.factory fb = some f ∧ s.refcnt fb + 1 ≤ 2
  | .replace name1 name2 _ _ => ∃ fb1 fb2 f1 f2, Found s name1 name2 fb1 fb2 ∧
      s.factory fb1 = some f1 ∧ s.factory fb2 = some f2 ∧
      (s.addRefs (ref fb1 + ref fb2)).refcnt fb2 ≤ 2
  | .subscribe name1 name2 al => ∃ fb1 fb2, Found s name1 name2 fb1 fb2 ∧ al.fn1 = true
  | .unsubscribe name1 name2 => ∃ fb1 fb2, Found s name1 name2 fb1 fb2
  | .bind name1 name2 _ => ∃ fb1 fb2, Found s name1 name2 fb1 fb2 ∧
      takesEvent s fb1 (.bindIdp .egress (s.idp fb2))
  | .unbind name1 name2 => ∃ fb1 fb2, Found s name1 name2 fb1 fb2 ∧
      takesEvent s fb1 (.unbindIdp .egress (s.idp fb2))

/-- A replacement that names a block without a factory: the first one, or the second one when the
first one has a factory. -/
def Leaks (s : State) : UserCmd → Prop
  | .replace name1 name2 _ _ => ∃ fb1, s.lookup name1 = some fb1 ∧
      (s.factory fb1 = none ∨ ∃ fb2, s.lookup name2 = some fb2 ∧ s.factory fb2 = none)
  | _ => False

/-- The address of the object the command itself allocates. -/
def Allocates (s : State) (a : Addr) : UserCmd → Prop
  | .add _ _ _ => a = s.nextFblock
  | _ => False

end UserCmd

/-- Tables, ports and lists are as they were, apart from a block at an address with `new`. -/
structure Untouched (new : Addr → Prop) (s t : State) : Prop where
  fblmap : t.fblmap = s.fblmap
  idpmap : t.idpmap = s.idpmap
  lists : ∀ a, ¬ new a → t.notifiers a = s.notifiers a ∧ t.subscribers a = s.subscribers a
  ports : ∀ a c, ¬ new a → (t.privateData a c).ports = (s.privateData a c).ports

theorem Quiet.untouched {s t : State} (h : Quiet s t) (new : Addr → Prop) : Untouched new s t where
  fblmap := congrArg Registry.fblmap h.registry
  idpmap := congrArg Registry.idpmap h.registry
  lists := fun a _ => ⟨congrFun (congrArg Lists.notifiers h.lists) a,
    congrFun (congrArg Lists.subscribers h.lists) a⟩
  ports := fun a c _ => h.ports a c

section Handlers

variable {s : State}

/-- An event that the first CPU refuses changes nothing. -/
theorem eventRx_of_not_takes {fb : Addr} {ev : FbEvent} {f : Priv → Option Priv}
    (hev : (s.ops fb).event ev = forEachOnlineCpu f) (h : ¬ takesEvent s fb ev) :
    eventRx s fb ev = (.bad, s) := by
  obtain ⟨c, cs, hcpus⟩ := List.exists_cons_of_ne_nil s.online.nonempty
  have hf : f (s.privateData fb c) = none := by
    by_contra hne
    obtain ⟨p, hp⟩ := Option.ne_none_iff_exists'.1 hne
    apply h
    simp [takesEvent, hev, hcpus, forEachOnlineCpu, hp]
  simp [eventRx, hev, hcpus, forEachOnlineCpu, hf]

theorem Quiet.put_two {t : State} {a b : Addr} (h : Quiet (s.addRefs (ref a + ref b)) t) :
    Quiet s (putFblock (putFblock t a) b) := by
  refine ⟨?_, ?_, fun x c => ?_, ?_⟩
  · rw [registry_putFblock, registry_putFblock, h.registry]
    rfl
  · rw [lists_putFblock, lists_putFblock, h.lists]
    rfl
  · rw [ports_putFblock, ports_putFblock, h.ports]
    rfl
  · rw [refcnt_put_two s (Δ := 0) (by rw [h.refcnt, add_zero]), add_zero]

theorem quiet_set {n : Name} {opt : CStr} {e : Errno} (h : (userctlSet s n opt).1 = .err e) :
    Quiet s (userctlSet s n opt).2 := by
  unfold userctlSet at h ⊢
  cases hl : s.lookup n with
  | none =>
    rw [searchFblockN_none hl]
    exact .refl s
  | some fb =>
    rw [searchFblockN_some hl] at h ⊢
    unfold fblockSetOption at h ⊢
    split_ifs at h ⊢
    exact quiet_get_put s fb

theorem quiet_remove {n : Name} {e : Errno} (h : (userctlRemove s n).1 = .err e) :
    Quiet s (userctlRemove s n).2 := by
  obtain ⟨-, hq, -⟩ | ⟨a, f, -, -, -, hret, -⟩ := userctlRemove_result s n
  · exact hq
  · rw [h] at hret
    cases hret

theorem quiet_subscribe {n1 n2 : Name} {al : Alloc}
    (h : ¬ (UserCmd.subscribe n1 n2 al).Writes s) : Quiet s (userctlSubscribe al s n1 n2).2 := by
  obtain ⟨-, hq⟩ | ⟨a, b, h1, h2, heq⟩ :=
    withTuple_cases s n1 n2 fun s fb1 fb2 => subscribeToRemoteFblock al.fn1 s fb2 fb1
  · exact hq
  · have hal : al.fn1 = false := by
      by_contra hal
      exact h ⟨a, b, ⟨h1, h2⟩, by simpa using hal⟩
    unfold userctlSubscribe
    rw [heq, hal]
    exact quiet_get_put_two s a b

theorem quiet_unsubscribe {n1 n2 : Name} (h : ¬ (UserCmd.unsubscribe n1 n2).Writes s) :
    Quiet s (userctlUnsubscribe s n1 n2).2 := by
  obtain ⟨-, hq⟩ | ⟨a, b, h1, h2, -⟩ :=
    withTuple_cases s n1 n2 fun s fb1 fb2 => (.ok, unsubscribeFromRemoteFblock s fb2 fb1)
  · exact hq
  · exact absurd ⟨a, b, h1, h2⟩ h

/-- A binding that the first block refuses at once. -/
theorem fblockBind_of_not_takes {a b : Addr}
    (h : ¬ takesEvent s a (.bindIdp .egress (s.idp b))) (al : Alloc) :
    fblockBind al s a b =
      (.err .EBUSY, putFblock (putFblock (s.addRefs (ref a + ref b)) a) b) := by
  have hbad : eventRx (s.addRefs (ref a + ref b)) a
      (.bindIdp .egress ((s.addRefs (ref a + ref b)).idp b)) =
        (.bad, s.addRefs (ref a + ref b)) :=
    eventRx_of_not_takes (event_bind _ _ _) h
  unfold fblockBind
  rw [getFblock_eq, getFblock_eq, addRefs_addRefs]
  dsimp only
  rw [hbad]

theorem fblockUnbind_of_not_takes {a b : Addr}
    (h : ¬ takesEvent s a (.unbindIdp .egress (s.idp b))) :
    fblockUnbind s a b = (.err .EBUSY, s) := by
  unfold fblockUnbind
  rw [eventRx_of_not_takes (event_unbind _ _ _) h]

theorem quiet_bind {n1 n2 : Name} {al : Alloc} (h : ¬ (UserCmd.bind n1 n2 al).Writes s) :
    Quiet s (userctlBind al s n1 n2).2 := by
  obtain ⟨-, hq⟩ | ⟨a, b, h1, h2, heq⟩ := withTuple_cases s n1 n2 (fblockBind al)
  · exact hq
  · have hno : ¬ takesEvent (s.addRefs (ref a + ref b)) a
        (.bindIdp .egress ((s.addRefs (ref a + ref b)).idp b)) := fun ht =>
      h ⟨a, b, ⟨h1, h2⟩, ht⟩
    unfold userctlBind
    rw [heq, fblockBind_of_not_takes hno]
    exact (quiet_get_put_two (s.addRefs (ref a + ref b)) a b).put_two

theorem quiet_unbind {n1 n2 : Name} (h : ¬ (UserCmd.unbind n1 n2).Writes s) :
    Quiet s (userctlUnbind s n1 n2).2 := by
  obtain ⟨-, hq⟩ | ⟨a, b, h1, h2, heq⟩ := withTuple_cases s n1 n2 fblockUnbind
  · exact hq
  · have hno : ¬ takesEvent (s.addRefs (ref a + ref b)) a
        (.unbindIdp .egress ((s.addRefs (ref a + ref b)).idp b)) := fun ht =>
      h ⟨a, b, ⟨h1, h2⟩, ht⟩
    unfold userctlUnbind
    rw [heq, fblockUnbind_of_not_takes hno]
    exact quiet_get_put_two s a b

/-- The state after `userctl_replace` has given up: a block without a factory has a reference
more than before. -/
theorem replace_refused {n1 n2 : Name} {dropPriv : Bool} {al : Alloc}
    (h : ¬ (UserCmd.replace n1 n2 dropPriv al).Writes s) :
    (Quiet s (userctlReplace al s n1 n2 dropPriv).2 ∧
        ¬ (UserCmd.replace n1 n2 dropPriv al).Leaks s) ∨
      ∃ t a, (userctlReplace al s n1 n2 dropPriv).2 = t ∧ Quiet (s.addRefs (ref a)) t ∧
        (UserCmd.replace n1 n2 dropPriv al).Leaks s := by
  rcases h1 : s.lookup n1 with _ | fb1
  · rw [userctlReplace_unknown h1]
    refine Or.inl ⟨.refl s, ?_⟩
    rintro ⟨fb1, hl, -⟩
    cases h1.symm.trans hl
  rcases hf1 : s.factory fb1 with _ | f1
  · rw [userctlReplace_noFactory h1 hf1]
    exact Or.inr ⟨_, fb1, rfl, .refl _, fb1, h1, Or.inl hf1⟩
  have hfirst : ∀ {a}, s.lookup n1 = some a → s.factory a ≠ none := by
    intro a ha
    cases h1.symm.trans ha
    rw [hf1]
    exact Option.some_ne_none f1
  rcases h2 : s.lookup n2 with _ | fb2
  · rw [userctlReplace_second h1 hf1 h2]
    refine Or.inl ⟨quiet_get_put s fb1, ?_⟩
    rintro ⟨a, ha, hnone | ⟨b, hb, -⟩⟩
    · exact hfirst ha hnone
    · cases h2.symm.trans hb
  rcases hf2 : s.factory fb2 with _ | f2
  · rw [userctlReplace_secondNoFactory h1 hf1 h2 hf2]
    refine Or.inr ⟨_, fb2, rfl, ?_, fb1, h1, Or.inr ⟨fb2, h2, hf2⟩⟩
    rw [add_comm, ← addRefs_addRefs]
    exact quiet_get_put _ fb1
  by_cases hbusy : (s.addRefs (ref fb1 + ref fb2)).refcnt fb2 > 2
  · rw [userctlReplace_busy h1 hf1 h2 hf2 hbusy]
    refine Or.inl ⟨quiet_get_put_two s fb1 fb2, ?_⟩
    rintro ⟨a, ha, hnone | ⟨b, hb, hnone⟩⟩
    · exact hfirst ha hnone
    · cases h2.symm.trans hb
      cases hf2.symm.trans hnone
  · exact absurd ⟨fb1, fb2, f1, f2, ⟨h1, h2⟩, hf1, hf2, not_lt.1 hbusy⟩ h

/-- A constructor that enters no block changes nothing but its own object. -/
theorem untouched_fbCtor {ops : FbType} {proc : Bool} {area : Priv} {al : Alloc} {n : CStr}
    (h : (fbCtor ops proc area al s n).2.fblmap = s.fblmap) :
    Untouched (· = s.nextFblock) s (fbCtor ops proc area al s n).2 ∧
      ∀ a, a ≠ s.nextFblock → (fbCtor ops proc area al s n).2.refcnt a = s.refcnt a := by
  have hconstructed : ∀ {t : State}, t.fblmap = s.fblmap → t.idpmap = s.idpmap →
      t.notifiers = s.notifiers → t.subscribers = (s.constructed n area ops).subscribers →
      t.privateData = (s.constructed n area ops).privateData →
      t.refcnt = (s.constructed n area ops).refcnt →
      Untouched (· = s.nextFblock) s t ∧ ∀ a, a ≠ s.nextFblock → t.refcnt a = s.refcnt a := by
    intro t hmap hidp hnot hsub hpriv href
    refine ⟨⟨hmap, hidp, fun a ha => ⟨congrFun hnot a, ?_⟩, fun a c ha => ?_⟩, fun a ha => ?_⟩
    · rw [hsub]
      exact (constructed_keep s n area ops ha).2.2.2.2.2
    · rw [hpriv, (constructed_keep s n area ops ha).2.2.2.1]
    · rw [href]
      exact (constructed_keep s n area ops ha).2.2.2.2.1
  refine fbCtor_rule (I := fun t => t.fblmap = s.fblmap →
    Untouched (· = s.nextFblock) s t ∧ ∀ a, a ≠ s.nextFblock → t.refcnt a = s.refcnt a)
    (fun _ => ?_) (fun _ => ?_) (fun _ => ?_) (fun _ => ?_) (fun hnone m hmap => ?_) proc al h
  · exact ⟨(Quiet.refl _).untouched _, fun _ _ => rfl⟩
  · exact ⟨⟨rfl, rfl, fun _ _ => ⟨rfl, rfl⟩, fun _ _ _ => rfl⟩, fun _ _ => rfl⟩
  · exact hconstructed rfl rfl rfl rfl rfl rfl
  · exact hconstructed rfl rfl rfl rfl rfl rfl
  · -- a new entry would show
    have hent : Function.update s.fblmap s.nextIdp (some s.nextFblock) s.nextIdp =
        s.fblmap s.nextIdp := congrFun hmap s.nextIdp
    rw [Function.update_self, hnone] at hent
    cases hent

theorem untouched_add {n : Name} {type : CStr} {al : Alloc}
    (h : (userctlAdd al s n type).2.fblmap = s.fblmap) :
    Untouched (· = s.nextFblock) s (userctlAdd al s n type).2 ∧
      ∀ a, a ≠ s.nextFblock → (userctlAdd al s n type).2.refcnt a = s.refcnt a := by
  unfold userctlAdd at h ⊢
  cases hl : s.lookup n with
  | some fb =>
    rw [searchFblockN_some hl]
    have hq := quiet_get_put s fb
    exact ⟨hq.untouched _, fun a _ => congrFun hq.refcnt a⟩
  | none =>
    rw [searchFblockN_none hl] at h ⊢
    dsimp only at h ⊢
    unfold buildFblockObject at h ⊢
    cases hf : critbitGet Factory.type fbmap type with
    | none => exact ⟨(Quiet.refl _).untouched _, fun _ _ => rfl⟩
    | some f =>
      obtain ⟨proc, hctor⟩ := ctor_eq f
      rw [hf] at h
      dsimp only at h ⊢
      rw [hctor] at h ⊢
      have hC := @untouched_fbCtor s f.ops proc (Priv.init 0 0) al n
      rcases hr : fbCtor f.ops proc (Priv.init 0 0) al s n with ⟨_ | fb, t⟩
      · rw [hr] at h hC
        exact hC h
      · rw [hr] at h hC
        obtain ⟨hu, href⟩ := hC h
        exact ⟨⟨hu.fblmap, hu.idpmap, hu.lists, hu.ports⟩, href⟩

end Handlers

/-- **Refused commands.** For every state and every command: an error that is returned before any
write to a table, a port or a list leaves them as they were; and the counts of all blocks are as
they were exactly if the command is not a replacement that has found a block without a factory. -/
theorem refused_counts (s : State) (c : UserCmd) (e : Errno) (herr : (c.exec s).1 = .err e)
    (hearly : ¬ c.Writes s) :
    Untouched (fun a => c.Allocates s a) s (c.exec s).2 ∧
      ((∀ a, ¬ c.Allocates s a → (c.exec s).2.refcnt a = s.refcnt a) ↔ ¬ c.Leaks s) := by
  have hquiet : ∀ {c : UserCmd}, Quiet s (c.exec s).2 → ¬ c.Leaks s →
      Untouched (fun a => c.Allocates s a) s (c.exec s).2 ∧
        ((∀ a, ¬ c.Allocates s a → (c.exec s).2.refcnt a = s.refcnt a) ↔ ¬ c.Leaks s) :=
    fun hq hno => ⟨hq.untouched _, fun _ => hno, fun _ a _ => congrFun hq.refcnt a⟩
  cases c with
  | add n type al =>
    obtain ⟨hu, href⟩ := untouched_add (not_not.1 hearly)
    exact ⟨hu, fun _ => id, fun _ => href⟩
  | set n opt => exact hquiet (quiet_set herr) id
  | rm n => exact hquiet (quiet_remove herr) id
  | subscribe n1 n2 al => exact hquiet (quiet_subscribe hearly) id
  | unsubscribe n1 n2 => exact hquiet (quiet_unsubscribe hearly) id
  | bind n1 n2 al => exact hquiet (quiet_bind hearly) id
  | unbind n1 n2 => exact hquiet (quiet_unbind hearly) id
  | replace n1 n2 dropPriv al =>
    obtain ⟨hq, hno⟩ | ⟨t, a, heq, hq, hleaks⟩ := replace_refused hearly
    · exact hquiet hq hno
    · refine ⟨?_, fun hsame => ?_, fun hno => absurd hleaks hno⟩
      · have hu := hq.untouched fun _ => False
        show Untouched _ s (userctlReplace al s n1 n2 dropPriv).2
        rw [heq]
        exact ⟨hu.fblmap, hu.idpmap, fun a _ => hu.lists a id, fun a c _ => hu.ports a c id⟩
      · have ha := hsame a id
        rw [show (UserCmd.exec s (.replace n1 n2 dropPriv al)).2 = t from heq, hq.refcnt,
          addRefs_refcnt, ref_self] at ha
        omega

/-- A hooked device, and a block with a factory. -/
def hookedRun : List Cmd := [.hookEth nameS 7 .ok, .add nameA Factory.dummy.type .ok]

/-- The removal of a block without a factory is refused, and its count stays. -/
theorem refused_counts_rm :
    let s := run (State.init oneCpu) hookedRun
    ((UserCmd.rm nameS).exec s).2.refcnt 0 = s.refcnt 0 := by
  intro s
  have herr : ((UserCmd.rm nameS).exec s).1 = .err .EINVAL := by decide
  refine (refused_counts s (.rm nameS) .EINVAL herr ?_).2.2 id 0 id
  rintro ⟨fb, f, hl, hf, -⟩
  have h0 : s.lookup nameS = some 0 := by decide
  cases h0.symm.trans hl
  have hnone : s.factory 0 = none := by decide
  cases hnone.symm.trans hf

/-- A replacement of the device's block, or by it, is refused with a reference left behind. -/
theorem replace_leaks :
    let s := run (State.init oneCpu) hookedRun
    let r := UserCmd.exec s (.replace nameS nameA false .ok)
    let r' := UserCmd.exec s (.replace nameA nameS false .ok)
    s.factory 0 = none ∧ r.1 = .err .EINVAL ∧ r.2.refcnt 0 = s.refcnt 0 + 1 ∧
      r'.1 = .err .EINVAL ∧ r'.2.refcnt 0 = s.refcnt 0 + 1 := by
  decide

end Lana
