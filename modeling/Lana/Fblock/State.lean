import Lana.Critbit.Map

/-!
# Functional blocks and their tables

The state of `xt_fblock.c`: the block objects, the notifier nodes, the crit-bit tree `idpmap` of
names and the radix tree `fblmap` of idps.  Objects are modelled field by field: a field of
`struct fblock` is a map from block addresses, a field of `struct fblock_notifier` a map from node
addresses, so that an update of one field leaves the others as they are.

Singly linked lists (`fb->notifiers`, the notifier chain `fb->others->subscribers`) are lists of
node addresses.  `refcnt` is an unbounded integer, where an `atomic_t` has 32 bits; a command moves
a count by a few references only, so that the two agree in every run that is not millions of
commands long (`atomicRead_run`).  `idp_t` is 32 bits wide and `idp_counter` 64.

`released` is not part of the source: it records every block whose count reached 0 in
`put_fblock`, with the `fblmap` of that moment.  Released blocks and nodes are not reused.
-/

namespace Lana

/-- `idp_t`. -/
abbrev Idp := UInt32

instance : Finite Idp := Finite.of_injective UInt32.toFin fun _ _ => UInt32.toFin_inj.1

/-- `IDP_UNKNOWN`. -/
def idpUnknown : Idp := 0

/-- The address of a `struct fblock`. -/
abbrev Addr := ℕ

/-- The address of a `struct fblock_notifier`. -/
abbrev NodeAddr := ℕ

abbrev Cpu := ℕ

/-- `enum path_type`. -/
inductive PathType where
  | ingress
  | egress
  deriving DecidableEq, Repr

/-- The other direction. -/
def PathType.flip : PathType → PathType
  | .ingress => .egress
  | .egress => .ingress

/-- The implementations behind `netfb_rx` and `event_rx`. -/
inductive FbType where
  | dummy
  | counter
  | bpf
  | tee
  | eth
  | ethvlink
  | pflana
  deriving DecidableEq, Repr

/-- The factories registered with the builder; vlink and socket blocks have none. -/
inductive Factory where
  | dummy
  | counter
  | bpf
  | tee
  deriving DecidableEq, Repr

/-- The functions a factory's constructor installs. -/
def Factory.ops : Factory → FbType
  | .dummy => .dummy
  | .counter => .counter
  | .bpf => .bpf
  | .tee => .tee

/-- `factory->type`. -/
def Factory.type : Factory → CStr
  | .dummy => ⟨[100, 117, 109, 109, 121], by simp, by simp⟩
  | .counter => ⟨[99, 111, 117, 110, 116, 101, 114], by simp, by simp⟩
  | .bpf => ⟨[98, 112, 102], by simp, by simp⟩
  | .tee => ⟨[116, 101, 101], by simp, by simp⟩

theorem Factory.type_injective : Function.Injective Factory.type := by
  intro f g h
  revert h
  cases f <;> cases g <;> decide

/-- `struct sock_filter`. -/
structure SockFilter where
  code : UInt16
  jt : UInt8
  jf : UInt8
  k : UInt32
  deriving DecidableEq

/-- The private area of a block on one CPU.  `port` stands in the area of every type, the other
fields in that of one: `portClone` (tee), `packets` and `bytes` (counter), `filter` (bpf), `dev`
(eth, ethvlink), `sockSelf` (PF_LANA). -/
structure Priv where
  port : PathType → Idp
  portClone : Idp
  packets : UInt64
  bytes : UInt64
  filter : Option (List SockFilter)
  dev : ℕ
  sockSelf : ℕ

/-- The area as the constructors initialise it. -/
def Priv.init (dev sockSelf : ℕ) : Priv :=
  { port := fun _ => idpUnknown, portClone := idpUnknown, packets := 0, bytes := 0, filter := none,
    dev := dev, sockSelf := sockSelf }

/-- The online CPUs in the order of `for_each_online_cpu`. -/
structure OnlineCpus where
  cpus : List Cpu
  nodup : cpus.Nodup
  nonempty : cpus ≠ []

/-- `struct idp_elem`; the crit-bit tree holds references to the name in it. -/
structure IdpElem where
  name : CStr
  idp : Idp
  deriving DecidableEq

/-- A count that reached 0 in `put_fblock`, and `fblmap` at that moment. -/
structure Release where
  fb : Addr
  fblmap : Idp → Option Addr

/-- The global state. -/
structure State where
  -- struct fblock
  name : Addr → CStr
  privateData : Addr → Cpu → Priv
  ops : Addr → FbType
  factory : Addr → Option Factory
  notifiers : Addr → List NodeAddr
  subscribers : Addr → List NodeAddr
  refcnt : Addr → ℤ
  idp : Addr → Idp
  -- struct fblock_notifier
  self : NodeAddr → Addr
  remote : NodeAddr → Idp
  notifierCall : NodeAddr → FbType
  -- tables
  idpmap : CritbitTree IdpElem
  fblmap : Idp → Option Addr
  idpCounter : ℕ
  online : OnlineCpus
  /-- The blocks that `fb_eth_devs`, `fb_ethvlink_vdevs` and the open PF_LANA sockets refer to. -/
  vlinks : List Addr
  -- allocator and observations
  nextFblock : Addr
  nextNode : NodeAddr
  panicked : Bool
  released : List Release

/-- The empty string. -/
def CStr.empty : CStr := ⟨[], by simp, by simp⟩

/-- The state after `init_fblock_tables`. -/
def State.init (online : OnlineCpus) : State :=
  { name := fun _ => CStr.empty
    privateData := fun _ _ => Priv.init 0 0
    ops := fun _ => .dummy
    factory := fun _ => none
    notifiers := fun _ => []
    subscribers := fun _ => []
    refcnt := fun _ => 0
    idp := fun _ => idpUnknown
    self := fun _ => 0
    remote := fun _ => idpUnknown
    notifierCall := fun _ => .dummy
    idpmap := none
    fblmap := fun _ => none
    idpCounter := 0
    online := online
    vlinks := []
    nextFblock := 0
    nextNode := 0
    panicked := false
    released := [] }

/-! ## Reference counts -/

/-- `fb_bpf_cleanup_filter_cpus`. -/
def fbBpfCleanupFilterCpus (s : State) (fb : Addr) : State :=
  { s with
    privateData := Function.update s.privateData fb fun c =>
      if c ∈ s.online.cpus then { s.privateData fb c with filter := none }
      else s.privateData fb c }

/-- `factory->dtor_outside_rcu`; only the bpf factory has one. -/
def Factory.dtorOutsideRcu (s : State) (fb : Addr) : Factory → State
  | .bpf => fbBpfCleanupFilterCpus s fb
  | _ => s

/-- `get_fblock`. -/
def getFblock (s : State) (fb : Addr) : State :=
  { s with refcnt := Function.update s.refcnt fb (s.refcnt fb + 1) }

/-- Record that the count of `fb` reached 0. -/
def State.logRelease (s : State) (fb : Addr) : State :=
  { s with released := ⟨fb, s.fblmap⟩ :: s.released }

/-- `put_fblock`.  A block without a factory is not released here.  The RCU callback
`free_fblock_rcu` raises `FBLOCK_DOWN`, which every `event_rx` ignores, and frees the object. -/
def putFblock (s : State) (fb : Addr) : State :=
  let s' := { s with refcnt := Function.update s.refcnt fb (s.refcnt fb - 1) }
  if s'.refcnt fb ≠ 0 then s'
  else
    match s.factory fb with
    | none => s'
    | some f => (f.dtorOutsideRcu s' fb).logRelease fb

/-! ## Lookups -/

/-- `get_fblock_namespace_mapping`. -/
def getFblockNamespaceMapping (s : State) (name : CStr) : Idp :=
  match critbitGet IdpElem.name s.idpmap name with
  | none => idpUnknown
  | some elem => elem.idp

/-- `search_fblock_n` without its reference: the block a name stands for. -/
def State.lookup (s : State) (name : CStr) : Option Addr :=
  s.fblmap (getFblockNamespaceMapping s name)

/-- `__search_fblock`. -/
def searchFblockRaw (s : State) (idp : Idp) : Option Addr × State :=
  match s.fblmap idp with
  | none => (none, s)
  | some fb => (some fb, getFblock s fb)

/-- `search_fblock`. -/
def searchFblock (s : State) (idp : Idp) : Option Addr × State :=
  if idp = idpUnknown then (none, s) else searchFblockRaw s idp

/-- `search_fblock_n`. -/
def searchFblockN (s : State) (name : CStr) : Option Addr × State :=
  searchFblockRaw s (getFblockNamespaceMapping s name)

end Lana
