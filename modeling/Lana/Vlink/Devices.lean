import Lana.User.Commands
import Lana.Vlink.Subsys

/-!
# The Ethernet vlink subsystems

The callbacks of `fb_ethvlink.c`, which stacks virtual devices on a real one, and of `fb_eth.c`,
which takes a whole device.  Either hooks a device by registering a receive handler and marking the
device in `priv_flags`; the two kinds of mark share bits.  Only one of the subsystems is registered
at a time, since both have the type `VLINKNLGRP_ETHERNET`.

Devices are numbered in the order of their registration.  The references `dev_get_by_name` takes are
left out: every path gives them back.
-/

namespace Lana

namespace Vlink

/-! ## Network devices -/

/-- The number of a `struct net_device`. -/
abbrev Dev := ℕ

/-- A `rx_handler`: `fb_eth_handle_frame`, `fb_ethvlink_handle_frame`, or one of another module. -/
inductive RxHandler where
  | eth
  | ethvlink
  | other
  deriving DecidableEq, Repr

/-- `IFF_VLINK_MAS`. -/
def iffVlinkMas : UInt32 := 0x20000

/-- `IFF_VLINK_DEV`. -/
def iffVlinkDev : UInt32 := 0x40000

/-- `IFF_IS_BRIDGED`. -/
def iffIsBridged : UInt32 := 0x60000

/-- `struct net_device`; `running` is the bit `IFF_RUNNING` of its `flags`. -/
structure NetDevice where
  name : CStr
  privFlags : UInt32
  running : Bool
  rxHandler : Option RxHandler

namespace NetDevice

/-- The test for `IFF_VLINK_DEV`. -/
def isVlinkDev (dev : NetDevice) : Bool := dev.privFlags &&& iffVlinkDev = iffVlinkDev

/-- `fb_ethvlink_real_dev_is_hooked`. -/
def realDevIsHooked (dev : NetDevice) : Bool := dev.privFlags &&& iffVlinkMas = iffVlinkMas

/-- `fb_eth_dev_is_bridged`. -/
def devIsBridged (dev : NetDevice) : Bool := dev.privFlags &&& iffIsBridged = iffIsBridged

/-- `fb_ethvlink_make_real_dev_hooked`. -/
def makeRealDevHooked (dev : NetDevice) : NetDevice :=
  { dev with privFlags := dev.privFlags ||| iffVlinkMas }

/-- `fb_ethvlink_make_real_dev_unhooked`. -/
def makeRealDevUnhooked (dev : NetDevice) : NetDevice :=
  { dev with privFlags := dev.privFlags &&& ~~~iffVlinkMas }

/-- `fb_eth_make_dev_bridged`. -/
def makeDevBridged (dev : NetDevice) : NetDevice :=
  { dev with privFlags := dev.privFlags ||| iffIsBridged }

/-- `fb_eth_make_dev_unbridged`. -/
def makeDevUnbridged (dev : NetDevice) : NetDevice :=
  { dev with privFlags := dev.privFlags &&& ~~~iffIsBridged }

/-- `netdev_rx_handler_register`, which a device with a handler refuses. -/
def rxHandlerRegister (dev : NetDevice) (h : RxHandler) : Option NetDevice :=
  if dev.rxHandler = none then some { dev with rxHandler := some h } else none

/-- `netdev_rx_handler_unregister`, whoever the handler belongs to. -/
def rxHandlerUnregister (dev : NetDevice) : NetDevice := { dev with rxHandler := none }

end NetDevice

/-! ### The bits of `priv_flags` -/

theorem and_mask_iff (f m : UInt32) :
    f &&& m = m ↔ ∀ i, m.toBitVec.getLsbD i = true → f.toBitVec.getLsbD i = true := by
  rw [← UInt32.toBitVec_inj, UInt32.toBitVec_and]
  constructor
  · intro h i hi
    rw [← h, BitVec.getLsbD_and, Bool.and_eq_true] at hi
    exact hi.1
  · intro h
    refine BitVec.eq_of_getLsbD_eq fun i _ => ?_
    rw [BitVec.getLsbD_and]
    cases hm : m.toBitVec.getLsbD i with
    | false => exact Bool.and_false _
    | true => rw [h i hm]; rfl

theorem getLsbD_mas (i : ℕ) : iffVlinkMas.toBitVec.getLsbD i = decide (17 = i) := by
  have hmask : iffVlinkMas.toBitVec = BitVec.twoPow 32 17 := by decide
  rw [hmask, BitVec.getLsbD_twoPow]
  rfl

theorem getLsbD_dev (i : ℕ) : iffVlinkDev.toBitVec.getLsbD i = decide (18 = i) := by
  have hmask : iffVlinkDev.toBitVec = BitVec.twoPow 32 18 := by decide
  rw [hmask, BitVec.getLsbD_twoPow]
  rfl

theorem getLsbD_bridged (i : ℕ) :
    iffIsBridged.toBitVec.getLsbD i = (decide (17 = i) || decide (18 = i)) := by
  have hmask : iffIsBridged = iffVlinkMas ||| iffVlinkDev := by decide
  rw [hmask, UInt32.toBitVec_or, BitVec.getLsbD_or, getLsbD_mas, getLsbD_dev]

namespace NetDevice

variable (dev : NetDevice)

theorem realDevIsHooked_iff :
    dev.realDevIsHooked = true ↔ dev.privFlags.toBitVec.getLsbD 17 = true := by
  unfold realDevIsHooked
  rw [decide_eq_true_iff, and_mask_iff]
  simp [getLsbD_mas]

theorem isVlinkDev_iff : dev.isVlinkDev = true ↔ dev.privFlags.toBitVec.getLsbD 18 = true := by
  unfold isVlinkDev
  rw [decide_eq_true_iff, and_mask_iff]
  simp [getLsbD_dev]

/-- The mark of `fb_eth.c` is made of the two marks of `fb_ethvlink.c`. -/
theorem devIsBridged_iff :
    dev.devIsBridged = true ↔ dev.realDevIsHooked = true ∧ dev.isVlinkDev = true := by
  rw [realDevIsHooked_iff, isVlinkDev_iff]
  unfold devIsBridged
  rw [decide_eq_true_iff, and_mask_iff]
  simp [getLsbD_bridged, or_imp, forall_and]

@[simp]
theorem realDevIsHooked_makeRealDevHooked : dev.makeRealDevHooked.realDevIsHooked = true := by
  simp [realDevIsHooked_iff, makeRealDevHooked, -BitVec.getLsbD_eq_getElem, getLsbD_mas]

@[simp]
theorem isVlinkDev_makeRealDevHooked : dev.makeRealDevHooked.isVlinkDev = dev.isVlinkDev := by
  rw [Bool.eq_iff_iff]
  simp [isVlinkDev_iff, makeRealDevHooked, -BitVec.getLsbD_eq_getElem, getLsbD_mas]

@[simp]
theorem realDevIsHooked_makeRealDevUnhooked : dev.makeRealDevUnhooked.realDevIsHooked = false := by
  rw [Bool.eq_false_iff]
  simp [realDevIsHooked_iff, makeRealDevUnhooked, -BitVec.getLsbD_eq_getElem, getLsbD_mas]

@[simp]
theorem devIsBridged_makeDevBridged : dev.makeDevBridged.devIsBridged = true := by
  simp [devIsBridged_iff, realDevIsHooked_iff, isVlinkDev_iff, makeDevBridged,
    -BitVec.getLsbD_eq_getElem, getLsbD_bridged]

@[simp]
theorem realDevIsHooked_makeDevUnbridged : dev.makeDevUnbridged.realDevIsHooked = false := by
  rw [Bool.eq_false_iff]
  simp [realDevIsHooked_iff, makeDevUnbridged, -BitVec.getLsbD_eq_getElem, getLsbD_bridged]

@[simp]
theorem isVlinkDev_makeDevUnbridged : dev.makeDevUnbridged.isVlinkDev = false := by
  rw [Bool.eq_false_iff]
  simp [isVlinkDev_iff, makeDevUnbridged, -BitVec.getLsbD_eq_getElem, getLsbD_bridged]

end NetDevice

/-- `struct fb_ethvlink_private`. -/
structure Vdev where
  tag : UInt16
  self : Dev
  realDev : Dev
  fb : Addr
  deriving DecidableEq

/-- `struct fb_eth_dev_node`. -/
structure EthNode where
  fb : Addr
  dev : Dev
  deriving DecidableEq

/-- The devices of `init_net`, `fb_ethvlink_vdevs`, `fb_eth_devs` and the functional blocks. -/
structure Net where
  dev : Dev → Option NetDevice
  ndev : ℕ
  vdevs : List Vdev
  ethDevs : List EthNode
  blocks : State

/-- The outcomes of what a callback allocates and registers. -/
structure DevAlloc where
  /-- `kmalloc` in `fb_eth_start_hook_dev` -/
  node : Bool := true
  /-- `alloc_netdev` -/
  netdev : Bool := true
  /-- the name `dev_alloc_name` gives a device when it returns 0 -/
  devName : Option CStr := none
  /-- `register_netdev` -/
  register : Bool := true
  /-- the functional block -/
  block : Alloc := {}

namespace Net

/-- `dev_get_by_name`. -/
def devGetByName (n : Net) (name : CStr) : Option (Dev × NetDevice) :=
  (List.range n.ndev).findSome? fun d =>
    (n.dev d).bind fun dev => if dev.name = name then some (d, dev) else none

def setDev (n : Net) (d : Dev) (dev : NetDevice) : Net :=
  { n with dev := Function.update n.dev d (some dev) }

/-- A device is registered under the next number. -/
def register (n : Net) (dev : NetDevice) : Net :=
  { n.setDev n.ndev dev with ndev := n.ndev + 1 }

/-- `unregister_netdevice`. -/
def unregister (n : Net) (d : Dev) : Net := { n with dev := Function.update n.dev d none }

end Net

/-! ## `fb_ethvlink.c` -/

/-- `fb_ethvlink_add_dev`. -/
def fbEthvlinkAddDev (al : DevAlloc) (vhdr : VlinkMsg) (n : Net) : UInt32 × Net :=
  if vhdr.cmd ≠ .addDevice then (vlinkRxNxt, n)
  else if (n.devGetByName vhdr.virtName).isSome then (vlinkRxEmerg, n)
  else
    match n.devGetByName vhdr.realName with
    | none => (vlinkRxEmerg, n)
    | some (root, rootDev) =>
      let port := vhdr.port &&& 0x3FF
      if rootDev.isVlinkDev then (vlinkRxEmerg, n)
      else if n.vdevs.any (·.tag = port) then (vlinkRxEmerg, n)
      else if !al.netdev then (vlinkRxEmerg, n)
      else
        match al.devName with
        | none => (vlinkRxEmerg, n)
        | some name =>
          if !al.register then (vlinkRxEmerg, n)
          else
            let built := fbEthvlinkBuildFblock al.block n.blocks name n.ndev
            let n := { n with blocks := keepVlink built }
            match built.1 with
            | none => (vlinkRxEmerg, n)
            | some fb =>
              (vlinkRxStop, { n.register ⟨name, vhdr.flags.toUInt32 ||| iffVlinkDev, false, none⟩ with
                vdevs := ⟨port, n.ndev, root, fb⟩ :: n.vdevs })

/-- `fb_ethvlink_start_hook_dev`. -/
def fbEthvlinkStartHookDev (vhdr : VlinkMsg) (n : Net) : UInt32 × Net :=
  if vhdr.cmd ≠ .startHookDevice then (vlinkRxNxt, n)
  else
    match n.devGetByName vhdr.realName with
    | none => (vlinkRxEmerg, n)
    | some (root, dev) =>
      if dev.isVlinkDev then (vlinkRxEmerg, n)
      else if dev.devIsBridged then (vlinkRxStop, n)
      else if dev.realDevIsHooked then (vlinkRxStop, n)
      else
        match dev.rxHandlerRegister .ethvlink with
        | none => (vlinkRxEmerg, n)
        | some dev => (vlinkRxStop, n.setDev root dev.makeRealDevHooked)

/-- `fb_ethvlink_stop_hook_dev`. -/
def fbEthvlinkStopHookDev (vhdr : VlinkMsg) (n : Net) : UInt32 × Net :=
  if vhdr.cmd ≠ .stopHookDevice then (vlinkRxNxt, n)
  else
    match n.devGetByName vhdr.realName with
    | none => (vlinkRxEmerg, n)
    | some (root, dev) =>
      if dev.isVlinkDev then (vlinkRxEmerg, n)
      else if !dev.realDevIsHooked then (vlinkRxStop, n)
      else (vlinkRxStop, n.setDev root dev.rxHandlerUnregister.makeRealDevUnhooked)

/-- The virtual devices on a real one, as `fb_ethvlink_rm_dev` counts them. -/
def Net.clients (n : Net) (realDev : Dev) : ℕ := n.vdevs.countP (·.realDev = realDev)

/-- The end of the hook on the carrier of the last client. -/
def Net.detach (n : Net) (realDev : Dev) : Net :=
  match n.dev realDev with
  | none => n
  | some dev =>
    if dev.realDevIsHooked then n.setDev realDev dev.rxHandlerUnregister.makeRealDevUnhooked else n

/-- The end of `fb_ethvlink_rm_dev`: the virtual device goes, and with the last one on a carrier the
hook of the carrier. -/
def Net.unstack (n : Net) (d : Dev) (v : Vdev) : Net :=
  let n := if n.clients v.realDev = 1 then n.detach v.realDev else n
  { n.unregister d with
    vdevs := n.vdevs.erase v
    blocks := destroyFblock n.blocks v.fb }

/-- `fb_ethvlink_rm_dev`.  The private area of a device with `IFF_VLINK_DEV` is the one on the list of
virtual devices. -/
def fbEthvlinkRmDev (vhdr : VlinkMsg) (n : Net) : UInt32 × Net :=
  if vhdr.cmd ≠ .rmDevice then (vlinkRxNxt, n)
  else
    match n.devGetByName vhdr.virtName with
    | none => (vlinkRxEmerg, n)
    | some (d, dev) =>
      if !dev.isVlinkDev then (vlinkRxEmerg, n)
      else if dev.running then (vlinkRxEmerg, n)
      else
        match n.vdevs.find? (·.self = d) with
        | none => (vlinkRxEmerg, n)
        | some v =>
          if n.blocks.refcnt v.fb > 2 then (vlinkRxEmerg, n) else (vlinkRxStop, n.unstack d v)

/-! ## `fb_eth.c` -/

/-- `fb_eth_start_hook_dev`.  `init_fb_eth`, the last step of the construction of the block, registers
the handler. -/
def fbEthStartHookDev (al : DevAlloc) (vhdr : VlinkMsg) (n : Net) : UInt32 × Net :=
  if vhdr.cmd ≠ .startHookDevice then (vlinkRxNxt, n)
  else
    match n.devGetByName vhdr.realName with
    | none => (vlinkRxEmerg, n)
    | some (d, dev) =>
      if dev.isVlinkDev then (vlinkRxEmerg, n)
      else if dev.devIsBridged then (vlinkRxStop, n)
      else if dev.realDevIsHooked then (vlinkRxStop, n)
      else if !al.node then (vlinkRxStop, n)
      else
        let al := { al.block with rxHandler := (dev.rxHandlerRegister .eth).isSome }
        let built := fbEthBuildFblock al n.blocks dev.name d
        let n := { n with blocks := keepVlink built }
        match built.1 with
        | none => (vlinkRxStop, n)
        | some fb =>
          (vlinkRxStop, { n.setDev d { dev with rxHandler := some .eth }.makeDevBridged with
            ethDevs := ⟨fb, d⟩ :: n.ethDevs })

/-- `fb_eth_stop_hook_dev`.  The device that `cleanup_fb_eth` finds in the block's private area is the
one the block was built for. -/
def fbEthStopHookDev (vhdr : VlinkMsg) (n : Net) : UInt32 × Net :=
  if vhdr.cmd ≠ .stopHookDevice then (vlinkRxNxt, n)
  else
    match n.devGetByName vhdr.realName with
    | none => (vlinkRxEmerg, n)
    | some (d, dev) =>
      if !dev.devIsBridged then (vlinkRxEmerg, n)
      else if dev.running then (vlinkRxEmerg, n)
      else
        match n.ethDevs.find? (·.dev = d) with
        | none => (vlinkRxEmerg, n)
        | some node =>
          if n.blocks.refcnt node.fb > 2 then (vlinkRxEmerg, n)
          else
            (vlinkRxStop, { n.setDev d dev.rxHandlerUnregister.makeDevUnbridged with
              ethDevs := n.ethDevs.erase node
              blocks := destroyFblock n.blocks node.fb })

/-! ## The subsystems -/

/-- `fb_eth_sys` and `fb_ethvlink_sys`. -/
inductive Subsys where
  | eth
  | ethvlink
  deriving DecidableEq, Repr

inductive Callback where
  | addDev
  | rmDev
  | startHookDev
  | stopHookDev
  deriving DecidableEq, Repr

/-- `NETLINK_VLINK_PRIO_NORM` and `NETLINK_VLINK_PRIO_HIGH`. -/
def Callback.priority : Callback → ℤ
  | .addDev | .rmDev => 1
  | .startHookDev | .stopHookDev => 2

/-- The callbacks in the order in which the module adds them. -/
def Subsys.callbacks : Subsys → List Callback
  | .eth => [.startHookDev, .stopHookDev]
  | .ethvlink => [.addDev, .rmDev, .startHookDev, .stopHookDev]

/-- The list of callbacks once the module is loaded. -/
def Subsys.head (sub : Subsys) : List Callback :=
  sub.callbacks.foldl (vlinkAddCallback Callback.priority) []

def Subsys.rx (al : DevAlloc) : Subsys → Callback → VlinkMsg → Net → UInt32 × Net
  | .ethvlink, .addDev => fbEthvlinkAddDev al
  | .ethvlink, .rmDev => fbEthvlinkRmDev
  | .ethvlink, .startHookDev => fbEthvlinkStartHookDev
  | .ethvlink, .stopHookDev => fbEthvlinkStopHookDev
  | .eth, .startHookDev => fbEthStartHookDev al
  | .eth, .stopHookDev => fbEthStopHookDev
  | .eth, .addDev | .eth, .rmDev => fun _ n => (vlinkRxNxt, n)

/-- The handler a subsystem registers. -/
def Subsys.handler : Subsys → RxHandler
  | .eth => .eth
  | .ethvlink => .ethvlink

/-! ## The blocks of the devices -/

/-- The blocks of the virtual devices and of the nodes are kept for them. -/
def Net.Kept (n : Net) : Prop :=
  (∀ v ∈ n.vdevs, v.fb ∈ n.blocks.vlinks) ∧ ∀ node ∈ n.ethDevs, node.fb ∈ n.blocks.vlinks

section Blocks

variable {n : Net} {vhdr : VlinkMsg} {al : DevAlloc}

theorem blocks_addDev : (fbEthvlinkAddDev al vhdr n).2.blocks = n.blocks ∨
    ∃ name, (fbEthvlinkAddDev al vhdr n).2.blocks =
      Cmd.exec n.blocks (.addEthvlink name n.ndev al.block) := by
  unfold fbEthvlinkAddDev
  dsimp only
  -- the early returns leave the blocks alone
  repeat' split
  any_goals exact .inl rfl
  all_goals exact .inr ⟨_, rfl⟩

theorem blocks_unstack (d : Dev) (v : Vdev) :
    (n.unstack d v).blocks = destroyFblock n.blocks v.fb := by
  unfold Net.unstack Net.detach
  repeat' split
  all_goals rfl

theorem removeVlink_eq {s : State} {fb : Addr} (hin : fb ∈ s.vlinks) (hrefs : ¬ s.refcnt fb > 2) :
    removeVlink s fb = destroyFblock s fb := by
  unfold removeVlink
  rw [if_neg (not_not.2 hin), if_neg hrefs]

theorem blocks_rmDev (h : n.Kept) : (fbEthvlinkRmDev vhdr n).2.blocks = n.blocks ∨
    ∃ fb, (fbEthvlinkRmDev vhdr n).2.blocks = Cmd.exec n.blocks (.stopVlink fb) := by
  unfold fbEthvlinkRmDev
  repeat' split
  any_goals exact .inl rfl
  rename_i v hv hrefs
  refine .inr ⟨v.fb, ?_⟩
  rw [blocks_unstack]
  exact (removeVlink_eq (h.1 v (List.mem_of_find?_eq_some hv)) hrefs).symm

theorem blocks_ethStartHookDev : (fbEthStartHookDev al vhdr n).2.blocks = n.blocks ∨
    ∃ name d al', (fbEthStartHookDev al vhdr n).2.blocks =
      Cmd.exec n.blocks (.hookEth name d al') := by
  unfold fbEthStartHookDev
  dsimp only
  repeat' split
  any_goals exact .inl rfl
  all_goals exact .inr ⟨_, _, _, rfl⟩

theorem blocks_ethStopHookDev (h : n.Kept) : (fbEthStopHookDev vhdr n).2.blocks = n.blocks ∨
    ∃ fb, (fbEthStopHookDev vhdr n).2.blocks = Cmd.exec n.blocks (.stopVlink fb) := by
  unfold fbEthStopHookDev
  repeat' split
  any_goals exact .inl rfl
  rename_i node hnode hrefs
  refine .inr ⟨node.fb, ?_⟩
  exact (removeVlink_eq (h.2 node (List.mem_of_find?_eq_some hnode)) hrefs).symm

theorem blocks_ethvlinkStartHookDev : (fbEthvlinkStartHookDev vhdr n).2.blocks = n.blocks := by
  unfold fbEthvlinkStartHookDev
  repeat' split
  all_goals rfl

theorem blocks_ethvlinkStopHookDev : (fbEthvlinkStopHookDev vhdr n).2.blocks = n.blocks := by
  unfold fbEthvlinkStopHookDev
  repeat' split
  all_goals rfl

/-- **Blocks.** A vlink callback leaves the functional blocks as they are, or does to them what one of
the commands `addEthvlink`, `hookEth` and `stopVlink` does. -/
theorem rx_blocks (h : n.Kept) (sub : Subsys) (cb : Callback) :
    (sub.rx al cb vhdr n).2.blocks = n.blocks ∨
      ∃ c : Cmd, (sub.rx al cb vhdr n).2.blocks = c.exec n.blocks := by
  cases sub with
  | eth =>
    cases cb with
    | addDev | rmDev => exact .inl rfl
    | startHookDev => exact blocks_ethStartHookDev.imp_right fun ⟨_, _, _, heq⟩ => ⟨_, heq⟩
    | stopHookDev => exact (blocks_ethStopHookDev h).imp_right fun ⟨_, heq⟩ => ⟨_, heq⟩
  | ethvlink =>
    cases cb with
    | addDev => exact blocks_addDev.imp_right fun ⟨_, heq⟩ => ⟨_, heq⟩
    | rmDev => exact (blocks_rmDev h).imp_right fun ⟨_, heq⟩ => ⟨_, heq⟩
    | startHookDev => exact .inl blocks_ethvlinkStartHookDev
    | stopHookDev => exact .inl blocks_ethvlinkStopHookDev

end Blocks

/-! ## Runs -/

/-- A netlink command, or what goes on around the subsystem: a device appears, goes up or down, has
the handler of another module registered or unregistered, and the control commands of the blocks
leave these in some state. -/
inductive Act where
  | command (vmsg : VlinkMsg) (al : DevAlloc)
  | plug (name : CStr)
  | running (d : Dev) (b : Bool)
  | foreign (d : Dev) (b : Bool)
  | blocks (s : State)

/-- Another module registers its handler, or unregisters it. -/
def NetDevice.foreign (dev : NetDevice) : Bool → NetDevice
  | true => (dev.rxHandlerRegister .other).getD dev
  | false => if dev.rxHandler = some .other then dev.rxHandlerUnregister else dev

/-- A change of a device, if there is one with this number. -/
def Net.onDev (n : Net) (d : Dev) (f : NetDevice → NetDevice) : Net :=
  { n with dev := Function.update n.dev d ((n.dev d).map f) }

/-- One step while the subsystem `sub` is registered. -/
def step (sub : Subsys) (w : Owned Net) : Act → Owned Net
  | .command vmsg al => (vlinkInvoke (sub.rx al) vmsg sub.head 0 w).2
  | .plug name => { w with state := w.state.register ⟨name, 0, false, none⟩ }
  | .running d b => { w with state := w.state.onDev d fun dev => { dev with running := b } }
  | .foreign d b => { w with state := w.state.onDev d (·.foreign b) }
  | .blocks s => { w with state := { w.state with blocks := s } }

/-- The devices the subsystem has hooked: its handler receives their frames. -/
def Net.hookedBy (sub : Subsys) (n : Net) : Finset Dev :=
  (Finset.range n.ndev).filter fun d => (n.dev d).bind NetDevice.rxHandler = some sub.handler

end Vlink

end Lana
