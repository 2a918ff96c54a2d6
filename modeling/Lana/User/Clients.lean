import Lana.Library.Interleave
import Lana.User.Wiring
import Lana.Fblock.Slots

/-!
# Two clients at once

`userctl_rcv` takes no lock, so two processes may run `userctl_remove` and `userctl_bind` at the
same time.  Each handler is cut into its atomic steps: a counted lookup, the test of the count, an
event, a subscription, the removal from the tables, a `put_fblock`.  Run alone, the steps give what
the handler gives (`remove_reaches`, `bind_reaches`), so that the two handlers one after the other
are among the interleavings.
-/

namespace Lana

open State Interleave

/-! ## The steps of `userctl_remove` -/

/-- Where `userctl_remove` stands.  At the end nothing is left to put. -/
inductive RmPc where
  | lookup
  | test (fb : Addr)
  | remove (fb : Addr)
  | puts (fbs : List Addr) (ret : Ret)
  deriving DecidableEq

/-- One step of `userctl_remove`. -/
def RmPc.step (name : Name) (s : State) : RmPc → State × RmPc
  | .lookup =>
    match searchFblockN s name with
    | (none, s) => (s, .puts [] (.err .EINVAL))
    | (some fb, s) => (s, .test fb)
  | .test fb =>
    match s.factory fb with
    | none => (s, .puts [fb] (.err .EINVAL))
    | some _ => if s.refcnt fb > 2 then (s, .puts [fb] (.err .EBUSY)) else (s, .remove fb)
  | .remove fb => (unregisterFblockNamespaceNoRcu s fb, .puts [fb, fb] .ok)
  | .puts [] ret => (s, .puts [] ret)
  | .puts (fb :: fbs) ret => (putFblock s fb, .puts fbs ret)

/-- The block that is about to leave the tables. -/
def RmPc.removing : RmPc → Option Addr
  | .remove fb => some fb
  | _ => none

/-! ## The steps of `userctl_bind` -/

/-- Where `__fblock_bind` stands, with the `__fblock_unbind` it calls when it is out of memory. -/
inductive BindStage where
  | get1
  | get2
  | bindEgress
  | bindIngress
  | rollback
  | subscribe1
  | subscribe2
  | unbindEgress
  | unbindIngress
  | unsubscribe1
  | unput1
  | unput2
  | unsubscribe2
  deriving DecidableEq

/-- Where `userctl_bind` stands. -/
inductive BindPc where
  | lookup1
  | lookup2 (fb1 : Addr)
  | at (stage : BindStage) (fb1 fb2 : Addr)
  | puts (fbs : List Addr) (ret : Ret)
  deriving DecidableEq

/-- One step of `__fblock_bind`. -/
def BindStage.step (al : Alloc) (s : State) (fb1 fb2 : Addr) : BindStage → State × BindPc
  | .get1 => (getFblock s fb1, .at .get2 fb1 fb2)
  | .get2 => (getFblock s fb2, .at .bindEgress fb1 fb2)
  | .bindEgress =>
    match eventRx s fb1 (.bindIdp .egress (s.idp fb2)) with
    | (.bad, s) => (s, .puts [fb1, fb2, fb1, fb2] (.err .EBUSY))
    | (.ok, s) => (s, .at .bindIngress fb1 fb2)
  | .bindIngress =>
    match eventRx s fb2 (.bindIdp .ingress (s.idp fb1)) with
    | (.bad, s) => (s, .at .rollback fb1 fb2)
    | (.ok, s) => (s, .at .subscribe1 fb1 fb2)
  | .rollback =>
    match eventRx s fb1 (.unbindIdp .egress (s.idp fb2)) with
    | (.bad, s) => ({ s with panicked := true }, .puts [fb1, fb2] (.err .EBUSY))
    | (.ok, s) => (s, .puts [fb1, fb2, fb1, fb2] (.err .EBUSY))
  | .subscribe1 =>
    match subscribeToRemoteFblock al.fn1 s fb1 fb2 with
    | (.err _, s) => (s, .at .unbindEgress fb1 fb2)
    | (.ok, s) => (s, .at .subscribe2 fb1 fb2)
  | .subscribe2 =>
    match subscribeToRemoteFblock al.fn2 s fb2 fb1 with
    | (.err _, s) => (s, .at .unbindEgress fb1 fb2)
    | (.ok, s) => (s, .puts [fb1, fb2] .ok)
  | .unbindEgress =>
    match eventRx s fb1 (.unbindIdp .egress (s.idp fb2)) with
    | (.bad, s) => (s, .puts [fb1, fb2] (.err .ENOMEM))
    | (.ok, s) => (s, .at .unbindIngress fb1 fb2)
  | .unbindIngress =>
    match eventRx s fb2 (.unbindIdp .ingress (s.idp fb1)) with
    | (.bad, s) => (s, .puts [fb1, fb1, fb2] (.err .ENOMEM))
    | (.ok, s) => (s, .at .unsubscribe1 fb1 fb2)
  | .unsubscribe1 =>
    (s.unlink fb1 fb2, .at (if s.notifiers fb1 = [] then .unsubscribe2 else .unput1) fb1 fb2)
  | .unput1 => (putFblock s fb1, .at .unput2 fb1 fb2)
  | .unput2 => (putFblock s fb2, .at .unsubscribe2 fb1 fb2)
  | .unsubscribe2 =>
    (s.unlink fb2 fb1, .puts ((if s.notifiers fb2 = [] then [] else [fb2, fb1]) ++
      [fb2, fb1, fb1, fb2]) (.err .ENOMEM))

/-- One step of `userctl_bind`. -/
def BindPc.step (al : Alloc) (name1 name2 : Name) (s : State) : BindPc → State × BindPc
  | .lookup1 =>
    match searchFblockN s name1 with
    | (none, s) => (s, .puts [] (.err .EINVAL))
    | (some fb1, s) => (s, .lookup2 fb1)
  | .lookup2 fb1 =>
    match searchFblockN s name2 with
    | (none, s) => (s, .puts [fb1] (.err .EINVAL))
    | (some fb2, s) => (s, .at .get1 fb1 fb2)
  | .at stage fb1 fb2 => stage.step al s fb1 fb2
  | .puts [] ret => (s, .puts [] ret)
  | .puts (fb :: fbs) ret => (putFblock s fb, .puts fbs ret)

/-- The name the next step looks up. -/
def BindPc.looksUp (name1 name2 : Name) : BindPc → Option Name
  | .lookup1 => some name1
  | .lookup2 _ => some name2
  | _ => none

/-- The blocks whose ports `userctl_bind` may still write. -/
def BindPc.blocks : BindPc → List Addr
  | .lookup2 fb1 => [fb1]
  | .at _ fb1 fb2 => [fb1, fb2]
  | _ => []

/-! ## One client alone -/

section Alone

variable {s : State} {name name1 name2 : Name} {al : Alloc}

theorem remove_puts (fbs : List Addr) (ret : Ret) (s : State) :
    Reaches (RmPc.step name) (s, .puts fbs ret) (fbs.foldl putFblock s, .puts [] ret) := by
  induction fbs generalizing s with
  | nil => exact .refl _
  | cons fb fbs ih => exact .head rfl (ih _)

/-- The steps of `userctl_remove` are `userctl_remove`. -/
theorem remove_reaches (s : State) (name : Name) :
    Reaches (RmPc.step name) (s, .lookup)
      ((userctlRemove s name).2, .puts [] (userctlRemove s name).1) := by
  unfold userctlRemove
  refine .head rfl ?_
  rcases h : searchFblockN s name with ⟨_ | fb, s1⟩
  · simp only [RmPc.step, h]
    exact .refl _
  simp only [RmPc.step, h]
  refine .head rfl ?_
  rcases hf : s1.factory fb with _ | f
  · simp only [RmPc.step, hf]
    exact remove_puts [fb] _ _
  simp only [RmPc.step, hf]
  split_ifs with hcnt
  · exact remove_puts [fb] _ _
  · exact .head rfl (remove_puts [fb, fb] _ _)

theorem bind_puts (fbs : List Addr) (ret : Ret) (s : State) :
    Reaches (BindPc.step al name1 name2) (s, .puts fbs ret)
      (fbs.foldl putFblock s, .puts [] ret) := by
  induction fbs generalizing s with
  | nil => exact .refl _
  | cons fb fbs ih => exact .head rfl (ih _)

/-- The second unsubscription, and what is put after it. -/
theorem bind_unsubscribe_reaches (s : State) (fb1 fb2 : Addr) :
    Reaches (BindPc.step al name1 name2) (s, .at .unsubscribe2 fb1 fb2)
      ([fb2, fb1, fb1, fb2].foldl putFblock (unsubscribeFromRemoteFblock s fb2 fb1),
        .puts [] (.err .ENOMEM)) := by
  refine .head rfl ?_
  by_cases hnil : s.notifiers fb2 = []
  · simp only [BindPc.step, BindStage.step, if_pos hnil, unsubscribe_eq_of_nil fb1 hnil]
    rw [show s.unlink fb2 fb1 = s by unfold State.unlink; rw [hnil]]
    exact bind_puts _ _ _
  · simp only [BindPc.step, BindStage.step, if_neg hnil, unsubscribe_eq_of_ne_nil fb1 hnil]
    exact bind_puts _ _ _

/-- The steps from `unbindEgress` on are `__fblock_unbind`, and the puts of the handler. -/
theorem bind_undo_reaches (s : State) (fb1 fb2 : Addr) :
    Reaches (BindPc.step al name1 name2) (s, .at .unbindEgress fb1 fb2)
      (putFblock (putFblock (fblockUnbind s fb1 fb2).2 fb1) fb2, .puts [] (.err .ENOMEM)) := by
  unfold fblockUnbind
  refine .head rfl ?_
  rcases h1 : eventRx s fb1 (.unbindIdp .egress (s.idp fb2)) with ⟨_ | _, s1⟩
  case bad =>
    simp only [BindPc.step, BindStage.step, h1]
    exact bind_puts _ _ _
  simp only [BindPc.step, BindStage.step, h1]
  refine .head rfl ?_
  rcases h2 : eventRx s1 fb2 (.unbindIdp .ingress (s1.idp fb1)) with ⟨_ | _, s2⟩
  case bad =>
    simp only [BindPc.step, BindStage.step, h2]
    exact bind_puts _ _ _
  simp only [BindPc.step, BindStage.step, h2]
  refine .head rfl ?_
  by_cases hnil : s2.notifiers fb1 = []
  · simp only [BindPc.step, BindStage.step, if_pos hnil, unsubscribe_eq_of_nil fb2 hnil]
    rw [show s2.unlink fb1 fb2 = s2 by unfold State.unlink; rw [hnil]]
    exact bind_unsubscribe_reaches s2 fb1 fb2
  · simp only [BindPc.step, BindStage.step, if_neg hnil, unsubscribe_eq_of_ne_nil fb2 hnil]
    exact .head rfl (.head rfl (bind_unsubscribe_reaches _ fb1 fb2))

/-- The steps of `userctl_bind` are `userctl_bind`. -/
theorem bind_reaches (al : Alloc) (s : State) (name1 name2 : Name) :
    Reaches (BindPc.step al name1 name2) (s, .lookup1)
      ((userctlBind al s name1 name2).2, .puts [] (userctlBind al s name1 name2).1) := by
  unfold userctlBind withTuple
  refine .head rfl ?_
  rcases h1 : searchFblockN s name1 with ⟨_ | fb1, s1⟩
  · simp only [BindPc.step, h1]
    exact .refl _
  simp only [BindPc.step, h1]
  refine .head rfl ?_
  rcases h2 : searchFblockN s1 name2 with ⟨_ | fb2, s2⟩
  · simp only [BindPc.step, h2]
    exact bind_puts [fb1] _ _
  simp only [BindPc.step, h2]
  refine .head rfl (.head rfl (.head rfl ?_))
  unfold fblockBind
  simp only [BindPc.step, BindStage.step]
  set t := getFblock (getFblock s2 fb1) fb2
  rcases h3 : eventRx t fb1 (.bindIdp .egress (t.idp fb2)) with ⟨_ | _, s3⟩
  case bad => exact bind_puts _ _ _
  refine .head rfl ?_
  rcases h4 : eventRx s3 fb2 (.bindIdp .ingress (s3.idp fb1)) with ⟨_ | _, s4⟩
  case bad =>
    simp only [BindPc.step, BindStage.step, h4]
    refine .head rfl ?_
    rcases h5 : eventRx s4 fb1 (.unbindIdp .egress (s4.idp fb2)) with ⟨_ | _, s5⟩
    all_goals
      simp only [BindPc.step, BindStage.step, h5]
      exact bind_puts _ _ _
  simp only [BindPc.step, BindStage.step, h4]
  refine .head rfl ?_
  rcases h5 : subscribeToRemoteFblock al.fn1 s4 fb1 fb2 with ⟨_ | _, s5⟩
  case err =>
    simp only [BindPc.step, BindStage.step, h5]
    exact bind_undo_reaches _ _ _
  simp only [BindPc.step, BindStage.step, h5]
  refine .head rfl ?_
  rcases h6 : subscribeToRemoteFblock al.fn2 s5 fb2 fb1 with ⟨_ | _, s6⟩
  · simp only [BindPc.step, BindStage.step, h6]
    exact bind_puts _ _ _
  · simp only [BindPc.step, BindStage.step, h6]
    exact bind_undo_reaches _ _ _

end Alone

/-- The two handlers one after the other are two of the interleavings. -/
theorem interleaving_remove_bind (al : Alloc) (s : State) (name name1 name2 : Name) :
    ∃ sched, Interleave.run (RmPc.step name) (BindPc.step al name1 name2)
      ⟨s, .lookup, .lookup1⟩ sched =
        ⟨(userctlBind al (userctlRemove s name).2 name1 name2).2,
          .puts [] (userctlRemove s name).1,
          .puts [] (userctlBind al (userctlRemove s name).2 name1 name2).1⟩ :=
  run_first_second (remove_reaches s name) (bind_reaches al _ name1 name2)

theorem interleaving_bind_remove (al : Alloc) (s : State) (name name1 name2 : Name) :
    ∃ sched, Interleave.run (RmPc.step name) (BindPc.step al name1 name2)
      ⟨s, .lookup, .lookup1⟩ sched =
        ⟨(userctlRemove (userctlBind al s name1 name2).2 name).2,
          .puts [] (userctlRemove (userctlBind al s name1 name2).2 name).1,
          .puts [] (userctlBind al s name1 name2).1⟩ :=
  run_second_first (bind_reaches al s name1 name2) (remove_reaches _ name)

end Lana
