import Mathlib.Data.UInt
import Lana.Base

/-!
# Vlink subsystems

`xt_vlink.c`: a subsystem keeps its callbacks in a list sorted by priority, and a netlink message
runs them one after another until one asks to stop.  The dispatcher also keeps the module of the
subsystem in memory: it takes a reference when a hook command ends with a `STOP`, and gives one back
when an unhook command does.
-/

namespace Lana

/-! ## Messages and results -/

/-- `enum vlink_cmd`; `other` stands for the rest of the eight bits. -/
inductive VlinkCmd where
  | addDevice
  | rmDevice
  | startHookDevice
  | stopHookDevice
  | other
  deriving DecidableEq, Repr

/-- `struct vlinknlmsg`. -/
structure VlinkMsg where
  cmd : VlinkCmd
  flags : UInt16
  port : UInt16
  virtName : CStr
  realName : CStr

/-- `NETLINK_VLINK_RX_NXT`. -/
def vlinkRxNxt : UInt32 := 1

/-- `NETLINK_VLINK_RX_EMERG`. -/
def vlinkRxEmerg : UInt32 := 3

/-- `NETLINK_VLINK_RX_STOP`. -/
def vlinkRxStop : UInt32 := 4

/-- The references to its module that `__vlink_invoke` takes for a command ended by a `STOP`. -/
def VlinkCmd.pin : VlinkCmd → ℤ
  | .startHookDevice => 1
  | .stopHookDevice => -1
  | _ => 0

/-! ## Callbacks -/

section Callbacks

variable {κ σ : Type*}

/-- `__vlink_add_callback`. -/
def vlinkAddCallback (priority : κ → ℤ) : List κ → κ → List κ
  | [], cb => [cb]
  | hb :: rest, cb =>
    if priority cb > priority hb then cb :: hb :: rest
    else hb :: vlinkAddCallback priority rest cb

/-- What the callbacks work on, and the references to the owner that `__vlink_invoke` has taken and
not given back. -/
@[ext]
structure Owned (σ : Type*) where
  pins : ℤ
  state : σ

/-- `__vlink_invoke` on the rest of the list; `ret` is the result of the callback before. -/
def vlinkInvoke (rx : κ → VlinkMsg → σ → UInt32 × σ) (vmsg : VlinkMsg) :
    List κ → UInt32 → Owned σ → UInt32 × Owned σ
  | [], ret, s => (ret, s)
  | hb :: hn, _, s =>
    let (ret, state) := rx hb vmsg s.state
    if ret &&& vlinkRxEmerg = vlinkRxEmerg then (ret, { s with state := state })
    else if ret &&& vlinkRxStop = vlinkRxStop then (ret, ⟨s.pins + vmsg.cmd.pin, state⟩)
    else vlinkInvoke rx vmsg hn ret { s with state := state }

variable {rx : κ → VlinkMsg → σ → UInt32 × σ} {vmsg : VlinkMsg} {hb : κ} {hn : List κ}
  {ret : UInt32} {s : Owned σ} {state : σ}

section Results

variable {r : UInt32} (h : rx hb vmsg s.state = (r, state))

include h

theorem vlinkInvoke_of_emerg (hemerg : r &&& vlinkRxEmerg = vlinkRxEmerg) :
    vlinkInvoke rx vmsg (hb :: hn) ret s = (r, ⟨s.pins, state⟩) := by
  simp only [vlinkInvoke, h, if_pos hemerg]

theorem vlinkInvoke_of_stop (hemerg : ¬ r &&& vlinkRxEmerg = vlinkRxEmerg)
    (hstop : r &&& vlinkRxStop = vlinkRxStop) :
    vlinkInvoke rx vmsg (hb :: hn) ret s = (r, ⟨s.pins + vmsg.cmd.pin, state⟩) := by
  simp only [vlinkInvoke, h, if_neg hemerg, if_pos hstop]

theorem vlinkInvoke_of_next (hemerg : ¬ r &&& vlinkRxEmerg = vlinkRxEmerg)
    (hstop : ¬ r &&& vlinkRxStop = vlinkRxStop) :
    vlinkInvoke rx vmsg (hb :: hn) ret s = vlinkInvoke rx vmsg hn r ⟨s.pins, state⟩ := by
  simp only [vlinkInvoke, h, if_neg hemerg, if_neg hstop]

end Results

/-- A callback the message is not for. -/
theorem vlinkInvoke_nxt (h : rx hb vmsg s.state = (vlinkRxNxt, s.state)) :
    vlinkInvoke rx vmsg (hb :: hn) ret s = vlinkInvoke rx vmsg hn vlinkRxNxt s :=
  vlinkInvoke_of_next h (by decide) (by decide)

theorem vlinkInvoke_emerg (h : rx hb vmsg s.state = (vlinkRxEmerg, state)) :
    vlinkInvoke rx vmsg (hb :: hn) ret s = (vlinkRxEmerg, ⟨s.pins, state⟩) :=
  vlinkInvoke_of_emerg h (by decide)

theorem vlinkInvoke_stop (h : rx hb vmsg s.state = (vlinkRxStop, state)) :
    vlinkInvoke rx vmsg (hb :: hn) ret s =
      (vlinkRxStop, ⟨s.pins + vmsg.cmd.pin, state⟩) :=
  vlinkInvoke_of_stop h (by decide) (by decide)

/-- What every callback preserves, a command preserves. -/
theorem vlinkInvoke_preserves {I : σ → Prop} (h : ∀ cb s, I s → I (rx cb vmsg s).2) :
    ∀ (cbs : List κ) (ret : UInt32) (s : Owned σ), I s.state →
      I (vlinkInvoke rx vmsg cbs ret s).2.state := by
  intro cbs
  induction cbs with
  | nil => exact fun _ _ hs => hs
  | cons cb cbs ih =>
    intro ret s hs
    have hcb := h cb s.state hs
    unfold vlinkInvoke
    dsimp only
    split_ifs
    · exact hcb
    · exact hcb
    · exact ih _ ⟨s.pins, _⟩ hcb

end Callbacks

end Lana
