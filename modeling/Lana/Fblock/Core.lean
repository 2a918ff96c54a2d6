import Lana.Fblock.Events

/-!
# The block backend

`xt_fblock.c`: registration in the two tables, subscriptions, binding, migration and the creation
of block objects.  Functions that may run out of memory take the outcome of each of their
allocations from `Alloc`.
-/

namespace Lana

/-- The outcomes of the allocations one command makes. -/
structure Alloc where
  /-- `alloc_fblock` -/
  fblock : Bool := true
  /-- `alloc_percpu` -/
  percpu : Bool := true
  /-- `kmalloc` in `init_fblock` -/
  others : Bool := true
  /-- `proc_create_data` -/
  proc : Bool := true
  /-- the nodes of `radix_tree_insert` -/
  radix : Bool := true
  /-- `kzalloc` in `register_to_fblock_namespace` -/
  elem : Bool := true
  /-- the node of `critbit_insert` -/
  node : Bool := true
  /-- `kmalloc` in the first `subscribe_to_remote_fblock` -/
  fn1 : Bool := true
  /-- `kmalloc` in the second `subscribe_to_remote_fblock` -/
  fn2 : Bool := true
  /-- `netdev_rx_handler_register` -/
  rxHandler : Bool := true
  deriving DecidableEq

/-- Every allocation succeeds. -/
def Alloc.ok : Alloc := {}

/-- `FBNAMSIZ`. -/
def fbnamsiz : ℕ := 16

/-- `strlcpy(dst, src, size)`. -/
def strlcpy (src : CStr) (size : ℕ) : CStr where
  bytes := src.bytes.take (size - 1)
  nonzero := fun b hb => src.nonzero b (List.mem_of_mem_take hb)
  len_lt := lt_of_le_of_lt (List.length_take_le' _ _) src.len_lt

theorem strlcpy_of_lt {src : CStr} {size : ℕ} (h : src.strlen < size) : strlcpy src size = src := by
  have hb : src.bytes.take (size - 1) = src.bytes :=
    List.take_of_length_le (by unfold CStr.strlen at h; omega)
  cases src
  simp only [strlcpy, CStr.mk.injEq]
  exact hb

/-! ## The tables -/

/-- `radix_tree_insert(&fblmap, idp, p)`. -/
def radixTreeInsert (alloc : Bool) (s : State) (idp : Idp) (p : Addr) : Ret × State :=
  if s.fblmap idp ≠ none then (.err .EEXIST, s)
  else if alloc then (.ok, { s with fblmap := Function.update s.fblmap idp (some p) })
  else (.err .ENOMEM, s)

/-- `radix_tree_delete(&fblmap, idp)`. -/
def radixTreeDelete (s : State) (idp : Idp) : State :=
  { s with fblmap := Function.update s.fblmap idp none }

/-- `provide_new_fblock_idp`: the 64-bit counter, cut to the width of `idp_t`. -/
def provideNewFblockIdp (s : State) : Idp × State :=
  let counter := (s.idpCounter + 1) % 2 ^ 64
  (UInt32.ofNat counter, { s with idpCounter := counter })

/-- `register_to_fblock_namespace`. -/
def registerToFblockNamespace (al : Alloc) (s : State) (name : CStr) (val : Idp) : Ret × State :=
  if critbitContains IdpElem.name s.idpmap name then (.err .EEXIST, s)
  else if !al.elem then (.err .ENOMEM, s)
  else
    let r := critbitInsert IdpElem.name al.node s.idpmap ⟨strlcpy name fbnamsiz, val⟩
    (r.1, { s with idpmap := r.2 })

/-- `unregister_from_fblock_namespace`. -/
def unregisterFromFblockNamespace (s : State) (name : CStr) : Ret × State :=
  match critbitGet IdpElem.name s.idpmap name with
  | none => (.err .ENOENT, s)
  | some elem =>
    let r := critbitDelete IdpElem.name s.idpmap elem.name
    (r.1, { s with idpmap := r.2 })

/-- `register_fblock`. -/
def registerFblock (al : Alloc) (s : State) (p : Addr) (idp : Idp) : Ret × State :=
  radixTreeInsert al.radix { s with idp := Function.update s.idp p idp } idp p

/-- `register_fblock_namespace`. -/
def registerFblockNamespace (al : Alloc) (s : State) (p : Addr) : Ret × State :=
  let (idp, s) := provideNewFblockIdp s
  let s := { s with idp := Function.update s.idp p idp }
  match radixTreeInsert al.radix s idp p with
  | (.err e, s) => (.err e, s)
  | (.ok, s) => registerToFblockNamespace al s (s.name p) (s.idp p)

/-- `unregister_fblock`. -/
def unregisterFblock (s : State) (p : Addr) : State :=
  putFblock (radixTreeDelete s (s.idp p)) p

/-- `unregister_fblock_namespace_no_rcu`. -/
def unregisterFblockNamespaceNoRcu (s : State) (p : Addr) : State :=
  (unregisterFromFblockNamespace (radixTreeDelete s (s.idp p)) (s.name p)).2

/-- `unregister_fblock_namespace`. -/
def unregisterFblockNamespace (s : State) (p : Addr) : State :=
  putFblock (unregisterFblockNamespaceNoRcu s p) p

/-! ## Subscriptions -/

/-- `subscribe_to_remote_fblock`.  The notifier chain keeps equal priorities in order of
registration. -/
def subscribeToRemoteFblock (alloc : Bool) (s : State) (us remote : Addr) : Ret × State :=
  if !alloc then (.err .ENOMEM, s)
  else
    let fn := s.nextNode
    let s := { s with nextNode := fn + 1 }
    let s := getFblock s us
    let s := getFblock s remote
    let s := { s with
      self := Function.update s.self fn us
      remote := Function.update s.remote fn (s.idp remote)
      notifierCall := Function.update s.notifierCall fn (s.ops us)
      notifiers := Function.update s.notifiers us (fn :: s.notifiers us) }
    let nb := (s.notifiers us).headD fn
    (.ok, { s with
      subscribers := Function.update s.subscribers remote (s.subscribers remote ++ [nb]) })

/-- The list surgery of `unsubscribe_from_remote_fblock`: a matching head is unlinked from
`us->notifiers`; behind the head the first matching node is unlinked and (`found`) taken out of the
remote's chain. -/
def unlinkNotifier (s : State) (us remote : Addr) (fn : NodeAddr) (rest : List NodeAddr) : State :=
  if s.remote fn = s.idp remote then
    { s with notifiers := Function.update s.notifiers us rest }
  else
    match rest.find? (fun f1 => s.remote f1 = s.idp remote) with
    | none => s
    | some f1 =>
      { s with
        notifiers := Function.update s.notifiers us (fn :: rest.erase f1)
        subscribers := Function.update s.subscribers remote ((s.subscribers remote).erase f1) }

/-- `unsubscribe_from_remote_fblock`. -/
def unsubscribeFromRemoteFblock (s : State) (us remote : Addr) : State :=
  match s.notifiers us with
  | [] => s
  | fn :: rest => putFblock (putFblock (unlinkNotifier s us remote fn rest) us) remote

/-! ## Binding -/

/-- `__fblock_unbind`. -/
def fblockUnbind (s : State) (fb1 fb2 : Addr) : Ret × State :=
  match eventRx s fb1 (.unbindIdp .egress (s.idp fb2)) with
  | (.bad, s) => (.err .EBUSY, s)
  | (.ok, s) =>
    match eventRx s fb2 (.unbindIdp .ingress (s.idp fb1)) with
    | (.bad, s) => (.err .EBUSY, putFblock s fb1)
    | (.ok, s) =>
      let s := unsubscribeFromRemoteFblock s fb1 fb2
      let s := unsubscribeFromRemoteFblock s fb2 fb1
      (.ok, putFblock (putFblock s fb2) fb1)

/-- `__fblock_bind`. -/
def fblockBind (al : Alloc) (s : State) (fb1 fb2 : Addr) : Ret × State :=
  let s := getFblock (getFblock s fb1) fb2
  match eventRx s fb1 (.bindIdp .egress (s.idp fb2)) with
  | (.bad, s) => (.err .EBUSY, putFblock (putFblock s fb1) fb2)
  | (.ok, s) =>
    match eventRx s fb2 (.bindIdp .ingress (s.idp fb1)) with
    | (.bad, s) =>
      match eventRx s fb1 (.unbindIdp .egress (s.idp fb2)) with
      | (.bad, s) => (.err .EBUSY, { s with panicked := true })
      | (.ok, s) => (.err .EBUSY, putFblock (putFblock s fb1) fb2)
    | (.ok, s) =>
      match subscribeToRemoteFblock al.fn1 s fb1 fb2 with
      | (.err _, s) => (.err .ENOMEM, (fblockUnbind s fb1 fb2).2)
      | (.ok, s) =>
        match subscribeToRemoteFblock al.fn2 s fb2 fb1 with
        | (.err _, s) => (.err .ENOMEM, (fblockUnbind s fb1 fb2).2)
        | (.ok, s) => (.ok, s)

/-! ## Options -/

/-- `fblock_set_option` with `opt` of the form `key=val`.  The handler's `NOTIFY_OK` is handed on,
which is no error. -/
def fblockSetOption (s : State) (fb : Addr) (opt : CStr) : Ret × State :=
  -- the byte of '='
  if 61 ∉ opt.bytes then (.err .EINVAL, s)
  else (.ok, putFblock (eventRx (getFblock s fb) fb .setOpt).2 fb)

/-! ## Migration -/

/-- The exchange of one field of two blocks. -/
def swapField {β : Type*} (f : Addr → β) (dst src : Addr) : Addr → β :=
  Function.update (Function.update f dst (f src)) src (f dst)

/-- `fblock_update_selfref`. -/
def fblockUpdateSelfref (s : State) : List NodeAddr → Addr → State
  | [], _ => s
  | n :: head, self =>
    fblockUpdateSelfref { s with self := Function.update s.self n self } head self

/-- `fblock_migrate_p`. -/
def fblockMigrateP (s : State) (dst src : Addr) : State :=
  let s := getFblock (getFblock s dst) src
  let s := { s with privateData := swapField s.privateData dst src }
  putFblock (putFblock s dst) src

/-- `fblock_migrate_r`. -/
def fblockMigrateR (s : State) (dst src : Addr) : State :=
  let s := getFblock (getFblock s dst) src
  let s := { s with
    idp := Function.update s.idp dst (s.idp src)
    name := Function.update s.name dst (strlcpy (s.name src) fbnamsiz) }
  let s := { s with notifiers := swapField s.notifiers dst src }
  let s := fblockUpdateSelfref s (s.notifiers dst) dst
  let s := fblockUpdateSelfref s (s.notifiers src) src
  let s := { s with subscribers := swapField s.subscribers dst src }
  let s := { s with
    refcnt := Function.update (Function.update s.refcnt src (s.refcnt dst)) dst (s.refcnt src) }
  putFblock (putFblock s dst) src

/-! ## Block objects -/

/-- `alloc_fblock`: a fresh object, as `ctor_fblock` leaves it. -/
def allocFblock (s : State) : Addr × State :=
  (s.nextFblock, { s with nextFblock := s.nextFblock + 1 })

/-- `init_fblock` with the functions the constructor installs. -/
def initFblock (s : State) (fb : Addr) (name : CStr) (area : Priv) (ops : FbType) : State :=
  { s with
    name := Function.update s.name fb (strlcpy name fbnamsiz)
    privateData := Function.update s.privateData fb fun _ => area
    subscribers := Function.update s.subscribers fb []
    refcnt := Function.update s.refcnt fb 1
    ops := Function.update s.ops fb ops }

/-- The constructor of a block type.  On an error the object is freed again; what
`register_fblock_namespace` has done to the tables stays. -/
def fbCtor (ops : FbType) (proc : Bool) (area : Priv) (al : Alloc) (s : State) (name : CStr) :
    Option Addr × State :=
  if !al.fblock then (none, s)
  else
    let (fb, s) := allocFblock s
    if !al.percpu || !al.others then (none, s)
    else
      let s := initFblock s fb name area ops
      if proc && !al.proc then (none, s)
      else
        match registerFblockNamespace al s fb with
        | (.err _, s) => (none, s)
        | (.ok, s) => (some fb, s)

/-- `fb_dummy_ctor`. -/
def fbDummyCtor := fbCtor .dummy false (Priv.init 0 0)

/-- `fb_counter_ctor`. -/
def fbCounterCtor := fbCtor .counter true (Priv.init 0 0)

/-- `fb_bpf_ctor`. -/
def fbBpfCtor := fbCtor .bpf true (Priv.init 0 0)

/-- `fb_tee_ctor`. -/
def fbTeeCtor := fbCtor .tee false (Priv.init 0 0)

/-- `factory->ctor`. -/
def Factory.ctor : Factory → Alloc → State → CStr → Option Addr × State
  | .dummy => fbDummyCtor
  | .counter => fbCounterCtor
  | .bpf => fbBpfCtor
  | .tee => fbTeeCtor

/-- `fb_eth_build_fblock`. -/
def fbEthBuildFblock (al : Alloc) (s : State) (name : CStr) (dev : ℕ) : Option Addr × State :=
  match fbCtor .eth false (Priv.init dev 0) al s name with
  | (none, s) => (none, s)
  | (some fb, s) =>
    if al.rxHandler then (some fb, s) else (none, unregisterFblockNamespaceNoRcu s fb)

/-- `fb_ethvlink_build_fblock`. -/
def fbEthvlinkBuildFblock (al : Alloc) (s : State) (name : CStr) (vdev : ℕ) :
    Option Addr × State :=
  fbCtor .ethvlink false (Priv.init vdev 0) al s name

/-- `fb_pflana_build_fblock`, with the `sock_self` that `lana_sk_init` sets. -/
def fbPflanaBuildFblock (al : Alloc) (s : State) (name : CStr) (sock : ℕ) : Option Addr × State :=
  fbCtor .pflana false (Priv.init 0 sock) al s name

end Lana
