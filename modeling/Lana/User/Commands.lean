import Lana.Fblock.Core

/-!
# Control commands

`xt_builder.c` and the handlers of `xt_user.c`, and beside them the commands that create and
destroy the blocks without a factory: hooking a device (`fb_eth.c`), stacking a virtual device
(`fb_ethvlink.c`), opening and closing a PF_LANA socket (`fb_pflana.c`).
-/

namespace Lana

/-- A block name that fits `char name[FBNAMSIZ]`. -/
abbrev Name := { s : CStr // s.strlen < fbnamsiz }

/-! ## The builder -/

/-- `fbmap` once the four block modules are loaded. -/
def fbmap : CritbitTree Factory :=
  (runCritbit Factory.type
    [.insert .dummy true, .insert .counter true, .insert .bpf true, .insert .tee true]).1

/-- `build_fblock_object`. -/
def buildFblockObject (al : Alloc) (s : State) (type name : CStr) : Option Addr × State :=
  match critbitGet Factory.type fbmap type with
  | none => (none, s)
  | some factory =>
    match factory.ctor al s name with
    | (none, s) => (none, s)
    | (some fb, s) => (some fb, { s with factory := Function.update s.factory fb (some factory) })

/-! ## The handlers of `xt_user.c` -/

/-- `userctl_add`. -/
def userctlAdd (al : Alloc) (s : State) (name : Name) (type : CStr) : Ret × State :=
  match searchFblockN s name with
  | (some fb, s) => (.err .EINVAL, putFblock s fb)
  | (none, s) =>
    match buildFblockObject al s type name with
    | (none, s) => (.err .ENOMEM, s)
    | (some _, s) => (.ok, s)

/-- `userctl_set`. -/
def userctlSet (s : State) (name : Name) (opt : CStr) : Ret × State :=
  match searchFblockN s name with
  | (none, s) => (.err .EINVAL, s)
  | (some fb, s) =>
    let (ret, s) := fblockSetOption s fb opt
    (ret, putFblock s fb)

/-- `userctl_remove`. -/
def userctlRemove (s : State) (name : Name) : Ret × State :=
  match searchFblockN s name with
  | (none, s) => (.err .EINVAL, s)
  | (some fb, s) =>
    match s.factory fb with
    | none => (.err .EINVAL, putFblock s fb)
    | some _ =>
      if s.refcnt fb > 2 then (.err .EBUSY, putFblock s fb)
      else (.ok, putFblock (unregisterFblockNamespace s fb) fb)

/-- `userctl_replace`. -/
def userctlReplace (al : Alloc) (s : State) (name1 name2 : Name) (dropPriv : Bool) : Ret × State :=
  match searchFblockN s name1 with
  | (none, s) => (.err .EINVAL, s)
  | (some fb1, s) =>
    match s.factory fb1 with
    | none => (.err .EINVAL, s)
    | some f1 =>
      match searchFblockN s name2 with
      | (none, s) => (.err .EINVAL, putFblock s fb1)
      | (some fb2, s) =>
        match s.factory fb2 with
        | none => (.err .EINVAL, putFblock s fb1)
        | some f2 =>
          if s.refcnt fb2 > 2 then (.err .EBUSY, putFblock (putFblock s fb1) fb2)
          else
            let s := unregisterFblockNamespaceNoRcu s fb2
            let s := if f1.type = f2.type ∧ dropPriv = false then fblockMigrateP s fb2 fb1 else s
            let s := fblockMigrateR s fb2 fb1
            let s := unregisterFblock s fb1
            let (ret, s) := registerFblock al s fb2 (s.idp fb2)
            (ret, putFblock (putFblock s fb1) fb2)

/-- The frame of the handlers that take two names: both blocks are held while `f` runs. -/
def withTuple (s : State) (name1 name2 : Name) (f : State → Addr → Addr → Ret × State) :
    Ret × State :=
  match searchFblockN s name1 with
  | (none, s) => (.err .EINVAL, s)
  | (some fb1, s) =>
    match searchFblockN s name2 with
    | (none, s) => (.err .EINVAL, putFblock s fb1)
    | (some fb2, s) =>
      let (ret, s) := f s fb1 fb2
      (ret, putFblock (putFblock s fb1) fb2)

/-- `userctl_subscribe`: the second block wishes to be notified by the first. -/
def userctlSubscribe (al : Alloc) (s : State) (name1 name2 : Name) : Ret × State :=
  withTuple s name1 name2 fun s fb1 fb2 => subscribeToRemoteFblock al.fn1 s fb2 fb1

/-- `userctl_unsubscribe`. -/
def userctlUnsubscribe (s : State) (name1 name2 : Name) : Ret × State :=
  withTuple s name1 name2 fun s fb1 fb2 => (.ok, unsubscribeFromRemoteFblock s fb2 fb1)

/-- `userctl_bind`. -/
def userctlBind (al : Alloc) (s : State) (name1 name2 : Name) : Ret × State :=
  withTuple s name1 name2 (fblockBind al)

/-- `userctl_unbind`. -/
def userctlUnbind (s : State) (name1 name2 : Name) : Ret × State :=
  withTuple s name1 name2 fblockUnbind

/-! ## Blocks without a factory -/

/-- The common end of `fb_eth_start_hook_dev`, `fb_ethvlink_add_dev` and `lana_sk_init`: the owner
keeps the block it built. -/
def keepVlink : Option Addr × State → State
  | (none, s) => s
  | (some fb, s) => { s with vlinks := fb :: s.vlinks }

/-- `fb_eth_start_hook_dev` on a device that is not hooked yet. -/
def fbEthStartHookDev (al : Alloc) (s : State) (name : CStr) (dev : ℕ) : State :=
  keepVlink (fbEthBuildFblock al s name dev)

/-- `fb_ethvlink_add_dev` for a new virtual device. -/
def fbEthvlinkAddDev (al : Alloc) (s : State) (name : CStr) (vdev : ℕ) : State :=
  keepVlink (fbEthvlinkBuildFblock al s name vdev)

/-- `lana_sk_init`. -/
def lanaSkInit (al : Alloc) (s : State) (name : CStr) (sock : ℕ) : State :=
  keepVlink (fbPflanaBuildFblock al s name sock)

/-- `fb_eth_destroy_fblock`, `fb_ethvlink_destroy_fblock`, `fb_pflana_destroy_fblock`: the block is
freed whatever its count. -/
def destroyFblock (s : State) (fb : Addr) : State :=
  let s := unregisterFblockNamespaceNoRcu s fb
  { s with vlinks := s.vlinks.erase fb }

/-- `fb_eth_stop_hook_dev` and `fb_ethvlink_rm_dev` on a device that is down: refused while others
use its block. -/
def removeVlink (s : State) (fb : Addr) : State :=
  if fb ∉ s.vlinks then s else if s.refcnt fb > 2 then s else destroyFblock s fb

/-- The block `search_fblock(port[dir])` finds, as `get_bound_fblock` does on the CPU `cpu`. -/
def getBoundFblock (cpu : Cpu) (s : State) (fb : Addr) (dir : PathType) : Option Addr × State :=
  searchFblock s ((s.privateData fb cpu).port dir)

/-- One of the two halves of `lana_sk_free`: a bound block is unbound and put. -/
def unbindBound (cpu : Cpu) (s : State) (fb : Addr) (dir : PathType)
    (f : State → Addr → Ret × State) : State :=
  match getBoundFblock cpu s fb dir with
  | (none, s) => s
  | (some bound, s) => putFblock (f s bound).2 bound

/-- `lana_sk_free`. -/
def lanaSkFree (cpu : Cpu) (s : State) (fb : Addr) : State :=
  if fb ∉ s.vlinks then s
  else
    let s := unbindBound cpu s fb .ingress fun s bound => fblockUnbind s bound fb
    let s := unbindBound cpu s fb .egress fun s bound => fblockUnbind s fb bound
    destroyFblock s fb

/-! ## Commands -/

/-- A control command, with the outcomes of its allocations. -/
inductive Cmd where
  | add (name : Name) (type : CStr) (al : Alloc)
  | rm (name : Name)
  | bind (name1 name2 : Name) (al : Alloc)
  | unbind (name1 name2 : Name)
  | replace (name1 name2 : Name) (dropPriv : Bool) (al : Alloc)
  | subscribe (name1 name2 : Name) (al : Alloc)
  | unsubscribe (name1 name2 : Name)
  | hookEth (name : CStr) (dev : ℕ) (al : Alloc)
  | addEthvlink (name : CStr) (vdev : ℕ) (al : Alloc)
  | openSock (name : CStr) (sock : ℕ) (al : Alloc)
  | stopVlink (fb : Addr)
  | closeSock (fb : Addr) (cpu : Cpu)

/-- The state after a command. -/
def Cmd.exec (s : State) : Cmd → State
  | .add name type al => (userctlAdd al s name type).2
  | .rm name => (userctlRemove s name).2
  | .bind name1 name2 al => (userctlBind al s name1 name2).2
  | .unbind name1 name2 => (userctlUnbind s name1 name2).2
  | .replace name1 name2 dropPriv al => (userctlReplace al s name1 name2 dropPriv).2
  | .subscribe name1 name2 al => (userctlSubscribe al s name1 name2).2
  | .unsubscribe name1 name2 => (userctlUnsubscribe s name1 name2).2
  | .hookEth name dev al => fbEthStartHookDev al s name dev
  | .addEthvlink name vdev al => fbEthvlinkAddDev al s name vdev
  | .openSock name sock al => lanaSkInit al s name sock
  | .stopVlink fb => removeVlink s fb
  | .closeSock fb cpu => lanaSkFree cpu s fb

/-- What a command returns. -/
def Cmd.ret (s : State) : Cmd → Ret
  | .add name type al => (userctlAdd al s name type).1
  | .rm name => (userctlRemove s name).1
  | .bind name1 name2 al => (userctlBind al s name1 name2).1
  | .unbind name1 name2 => (userctlUnbind s name1 name2).1
  | .replace name1 name2 dropPriv al => (userctlReplace al s name1 name2 dropPriv).1
  | .subscribe name1 name2 al => (userctlSubscribe al s name1 name2).1
  | .unsubscribe name1 name2 => (userctlUnsubscribe s name1 name2).1
  | _ => .ok

/-- The commands that take a new idp. -/
def Cmd.creates : Cmd → Bool
  | .add .. | .hookEth .. | .addEthvlink .. | .openSock .. => true
  | _ => false

/-- A command that takes a new idp is given while there are idps left: `idp_t` has 32 bits, and
the next one would be `IDP_UNKNOWN`. -/
def Cmd.IdpLeft (s : State) (c : Cmd) : Prop := c.creates = true → s.idpCounter + 1 < 2 ^ 32

instance (s : State) (c : Cmd) : Decidable (c.IdpLeft s) :=
  inferInstanceAs (Decidable (c.creates = true → s.idpCounter + 1 < 2 ^ 32))

/-- The state after a sequence of commands. -/
def run (s : State) (cmds : List Cmd) : State := cmds.foldl Cmd.exec s

/-! ## Small stacks

Names and CPUs for the runs on fixed inputs. -/

/-- A name of one byte. -/
def oneByte (b : UInt8) (h : b ≠ 0) : Name :=
  ⟨⟨[b], by simpa using h, show 1 < 2 ^ 32 by decide⟩, show 1 < fbnamsiz by decide⟩

def nameA : Name := oneByte 97 (by decide)

def nameB : Name := oneByte 98 (by decide)

def nameC : Name := oneByte 99 (by decide)

def nameS : Name := oneByte 115 (by decide)

/-- CPU 0 alone. -/
def oneCpu : OnlineCpus := ⟨[0], by decide, by decide⟩

end Lana
