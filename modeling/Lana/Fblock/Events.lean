import Lana.Fblock.State

/-!
# Configuration events

`event_rx` of every block type.  All types keep `port[2]` on each CPU and handle
`FBLOCK_BIND_IDP` and `FBLOCK_UNBIND_IDP` alike, one online CPU after the other up to the first
that refuses (`forEachOnlineCpu`); the tee has a third slot `port_clone` for either direction.
-/

namespace Lana

/-- `NOTIFY_OK` or `NOTIFY_BAD`. -/
inductive Notify where
  | ok
  | bad
  deriving DecidableEq, Repr

/-- The `cmd` of an event, with the `struct fblock_bind_msg` of the first two. -/
inductive FbEvent where
  | bindIdp (dir : PathType) (idp : Idp)
  | unbindIdp (dir : PathType) (idp : Idp)
  | setOpt
  | downPrepare
  | down

/-- The loop over the CPUs: `f` updates the area of one CPU, or refuses and ends the loop. -/
def forEachOnlineCpu (f : Priv → Option Priv) : List Cpu → (Cpu → Priv) → Notify × (Cpu → Priv)
  | [], priv => (.ok, priv)
  | cpu :: cpus, priv =>
    match f (priv cpu) with
    | none => (.bad, priv)
    | some p => forEachOnlineCpu f cpus (Function.update priv cpu p)

/-- `port[dir] = idp` where the port is free. -/
def bindPort (dir : PathType) (idp : Idp) (p : Priv) : Option Priv :=
  if p.port dir = idpUnknown then some { p with port := Function.update p.port dir idp } else none

/-- `port[dir] = IDP_UNKNOWN` where the port holds `idp`. -/
def unbindPort (dir : PathType) (idp : Idp) (p : Priv) : Option Priv :=
  if p.port dir = idp then some { p with port := Function.update p.port dir idpUnknown } else none

/-- `FBLOCK_BIND_IDP` of the tee: the clone port takes what the port cannot. -/
def bindTee (dir : PathType) (idp : Idp) (p : Priv) : Option Priv :=
  if p.port dir = idpUnknown then some { p with port := Function.update p.port dir idp }
  else if p.portClone = idpUnknown then some { p with portClone := idp } else none

/-- `FBLOCK_UNBIND_IDP` of the tee. -/
def unbindTee (dir : PathType) (idp : Idp) (p : Priv) : Option Priv :=
  if p.port dir = idp then some { p with port := Function.update p.port dir idpUnknown }
  else if p.portClone = idp then some { p with portClone := idpUnknown } else none

/-- The handler of a block with two ports. -/
def portEvent (ev : FbEvent) (cpus : List Cpu) (priv : Cpu → Priv) : Notify × (Cpu → Priv) :=
  match ev with
  | .bindIdp dir idp => forEachOnlineCpu (bindPort dir idp) cpus priv
  | .unbindIdp dir idp => forEachOnlineCpu (unbindPort dir idp) cpus priv
  | _ => (.ok, priv)

/-- `fb_dummy_event`. -/
def fbDummyEvent := portEvent

/-- `fb_counter_event`. -/
def fbCounterEvent := portEvent

/-- `fb_bpf_event`. -/
def fbBpfEvent := portEvent

/-- `fb_eth_event`. -/
def fbEthEvent := portEvent

/-- `fb_ethvlink_event`. -/
def fbEthvlinkEvent := portEvent

/-- `fb_pflana_event`. -/
def fbPflanaEvent := portEvent

/-- `fb_tee_event`. -/
def fbTeeEvent (ev : FbEvent) (cpus : List Cpu) (priv : Cpu → Priv) : Notify × (Cpu → Priv) :=
  match ev with
  | .bindIdp dir idp => forEachOnlineCpu (bindTee dir idp) cpus priv
  | .unbindIdp dir idp => forEachOnlineCpu (unbindTee dir idp) cpus priv
  | _ => (.ok, priv)

/-- The handler of a type. -/
def FbType.event : FbType → FbEvent → List Cpu → (Cpu → Priv) → Notify × (Cpu → Priv)
  | .dummy => fbDummyEvent
  | .counter => fbCounterEvent
  | .bpf => fbBpfEvent
  | .tee => fbTeeEvent
  | .eth => fbEthEvent
  | .ethvlink => fbEthvlinkEvent
  | .pflana => fbPflanaEvent

/-- `fb->event_rx(&fbn.nb, cmd, &msg)` with `fbn.self = fb`. -/
def eventRx (s : State) (fb : Addr) (ev : FbEvent) : Notify × State :=
  let r := (s.ops fb).event ev s.online.cpus (s.privateData fb)
  (r.1, { s with privateData := Function.update s.privateData fb r.2 })

end Lana
