import Lana.Engine.Basic

/-!
# The blocks seen from the engine

`netfb_rx` of the seven block types, and the functions by which a device or a socket hands a packet
to the engine.  What the kernel decides (whether `skb_copy` and `skb_clone` have memory, whether a
socket takes a packet, what a filter returns) comes from `Kernel`; a packet carries its own
identity, so that each call may have its own outcome.

The `ledger` of the world records each disposal of a packet, `made` each packet made from another
one.  Neither is part of the source.
-/

namespace Lana

/-- How the blocks and the engine give a packet away. -/
inductive Disposal where
  /-- `kfree_skb` -/
  | freed
  /-- put on the receive queue of a socket -/
  | queued (sock : ℕ)
  /-- `dev_queue_xmit` -/
  | sent (dev : ℕ)
  deriving DecidableEq, Repr

/-- The kernel around the engine of one CPU. -/
structure Kernel where
  cpu : Cpu
  /-- whether `skb_copy` has memory -/
  skbCopy : Skb → Bool
  /-- whether `skb_clone` has memory -/
  skbClone : Skb → Bool
  /-- whether `sock_queue_rcv_skb` takes the packet -/
  sockQueueRcvSkb : ℕ → Skb → Bool
  /-- `SK_RUN_FILTER` -/
  skRunFilter : List SockFilter → Skb → UInt32

/-- The blocks, and what became of the packets. -/
structure World where
  st : State
  ledger : List (PktId × Disposal)
  made : List PktId

/-- The blocks, with nothing recorded. -/
def World.of (s : State) : World := { st := s, ledger := [], made := [] }

/-! ## Packets -/

/-- `skb_shared`. -/
def skbShared (skb : Skb) : Bool := skb.users ≠ 1

def World.dispose (w : World) (skb : Skb) (d : Disposal) : World :=
  { w with ledger := w.ledger ++ [(skb.id, d)] }

/-- `kfree_skb`. -/
def kfreeSkb (w : World) (skb : Skb) : World := w.dispose skb .freed

/-- `dev_queue_xmit`, which always consumes the packet. -/
def devQueueXmit (w : World) (dev : ℕ) (skb : Skb) : World := w.dispose skb (.sent dev)

/-- `sock_queue_rcv_skb`. -/
def sockQueueRcvSkb (k : Kernel) (w : World) (sock : ℕ) (skb : Skb) : World :=
  if k.sockQueueRcvSkb sock skb then w.dispose skb (.queued sock) else w

/-- A new packet with the contents of another one. -/
def Skb.derive (skb : Skb) (m : Making) (hop : ℕ) : Skb :=
  { skb with id := { skb.id with path := skb.id.path ++ [(m, hop)] }, users := 1 }

/-- The packet `skb_copy` makes. -/
def Skb.copied (skb : Skb) : Skb := skb.derive .copy skb.hop

/-- The packet `skb_clone` makes. -/
def Skb.cloned (skb : Skb) : Skb := skb.derive .clone (skb.hop + 1)

def World.make (w : World) (skb : Skb) : World := { w with made := w.made ++ [skb.id] }

/-! ## `netfb_rx` -/

section Netrx

variable (k : Kernel) (w : World) (fb : Addr) (skb : Skb) (dir : PathType)

/-- `this_cpu_ptr(fb->private_data)`. -/
def World.area : Priv := w.st.privateData fb k.cpu

/-- The way through a block with two ports: the packet gets the idp behind the port, and is dropped
when there is none. -/
def forward (priv : Priv) : Rx World :=
  let skb := writeNextIdpToSkb skb (w.st.idp fb) (priv.port dir)
  if priv.port dir = idpUnknown then .ret (kfreeSkb w skb) skb dir ppeDropped
  else .ret w skb dir ppeSuccess

/-- `fb_dummy_netrx`. -/
def fbDummyNetrx : Rx World := forward w fb skb dir (w.area k fb)

/-- The counters of a block, one packet further. -/
def Priv.count (priv : Priv) (skb : Skb) : Priv :=
  { priv with packets := priv.packets + 1, bytes := priv.bytes + skb.len.toUInt64 }

/-- The area of `fb` on the CPU of the engine is written. -/
def World.setArea (priv : Priv) : World :=
  { w with
    st := { w.st with
      privateData := Function.update w.st.privateData fb
        (Function.update (w.st.privateData fb) k.cpu priv) } }

/-- `fb_counter_netrx`. -/
def fbCounterNetrx : Rx World :=
  let priv := w.area k fb
  forward (w.setArea k fb (priv.count skb)) fb skb dir priv

/-- `fb_bpf_netrx`. -/
def fbBpfNetrx : Rx World :=
  let priv := w.area k fb
  match priv.filter with
  | none => forward w fb skb dir priv
  | some filter =>
    if k.skRunFilter filter skb < skb.len then .ret (kfreeSkb w skb) skb dir ppeDropped
    else forward w fb skb dir priv

/-- `fb_tee_netrx`.  The packet that is copied has its next idp already. -/
def fbTeeNetrx : Rx World :=
  let priv := w.area k fb
  let next := writeNextIdpToSkb skb (w.st.idp fb) (priv.port dir)
  if priv.portClone ≠ idpUnknown ∧ k.skbCopy next then
    .engineBacklogTail (w.make next.copied)
      (writeNextIdpToSkb next.copied (w.st.idp fb) priv.portClone) dir
      fun w => forward w fb skb dir priv
  else forward w fb skb dir priv

/-- The end of a packet at a device. -/
def transmit : Rx World :=
  let skb := writeNextIdpToSkb skb (w.st.idp fb) idpUnknown
  .ret (devQueueXmit w (w.area k fb).dev skb) skb dir ppeDropped

/-- `fb_eth_netrx`. -/
def fbEthNetrx : Rx World := transmit k w fb skb dir

/-- `fb_ethvlink_netrx`; the device is the virtual one. -/
def fbEthvlinkNetrx : Rx World := transmit k w fb skb dir

/-- `fb_pflana_netrx`.  Whether the socket took the packet is not looked at. -/
def fbPflanaNetrx : Rx World :=
  let sk := (w.area k fb).sockSelf
  let out (w : World) (skb : Skb) : Rx World :=
    .ret w (writeNextIdpToSkb skb (w.st.idp fb) idpUnknown) dir ppeHalt
  if skbShared skb then
    if k.skbClone skb then
      let nskb := skb.cloned
      out (sockQueueRcvSkb k (kfreeSkb (w.make nskb) skb) sk nskb) nskb
    else out w skb
  else out (sockQueueRcvSkb k w sk skb) skb

/-- `fb->netfb_rx`. -/
def netfbRx : Rx World :=
  match w.st.ops fb with
  | .dummy => fbDummyNetrx k w fb skb dir
  | .counter => fbCounterNetrx k w fb skb dir
  | .bpf => fbBpfNetrx k w fb skb dir
  | .tee => fbTeeNetrx k w fb skb dir
  | .eth => fbEthNetrx k w fb skb dir
  | .ethvlink => fbEthvlinkNetrx k w fb skb dir
  | .pflana => fbPflanaNetrx k w fb skb dir

end Netrx

/-- The blocks as the engine calls them. -/
def lana (k : Kernel) : Backend World where
  searchFblock w idp :=
    let r := searchFblockRaw w.st idp
    (r.1, { w with st := r.2 })
  netfbRx := netfbRx k
  putFblock w fb := { w with st := putFblock w.st fb }
  kfreeSkb := kfreeSkb

/-- A kernel with memory, where every socket has room and every filter takes the whole packet. -/
def roomy : Kernel where
  cpu := 0
  skbCopy _ := true
  skbClone _ := true
  sockQueueRcvSkb _ _ := true
  skRunFilter _ skb := skb.len

/-! ## Sources of packets -/

/-- The common end of the functions below: the packet is sent to the block behind the port `dir` of
`fb`. -/
def sendFrom (k : Kernel) (n : ℕ) (e : Engine World) (fb : Addr) (skb : Skb) (dir : PathType) :
    Option (ℤ × Engine World) :=
  processPacket (lana k) n e
    (writeNextIdpToSkb skb (e.world.st.idp fb) ((e.world.area k fb).port dir)) dir

/-- `rx_handler_result_t`. -/
inductive RxHandlerResult where
  | pass
  | consumed
  deriving DecidableEq, Repr

/-- A frame a device has received. -/
structure Frame where
  skb : Skb
  dev : ℕ
  /-- `pkt_type == PACKET_LOOPBACK` -/
  loopback : Bool
  /-- `is_valid_ether_addr(eth_hdr(skb)->h_source)` -/
  validSource : Bool

/-- `skb_share_check`. -/
def skbShareCheck (k : Kernel) (w : World) (skb : Skb) : Option Skb × World :=
  if skbShared skb then
    if k.skbClone skb then (some skb.cloned, kfreeSkb (w.make skb.cloned) skb)
    else (none, kfreeSkb w skb)
  else (some skb, w)

/-- `fb_eth_handle_frame`.  The loop over `fb_eth_devs` keeps the last match. -/
def fbEthHandleFrame (k : Kernel) (n : ℕ) (e : Engine World) (f : Frame) :
    Option (RxHandlerResult × Engine World) :=
  let drop (w : World) (skb : Skb) := some (.consumed, e.withWorld (kfreeSkb w skb))
  if f.loopback then some (.pass, e)
  else if !f.validSource then drop e.world f.skb
  else
    match skbShareCheck k e.world f.skb with
    | (none, w) => some (.consumed, e.withWorld w)
    | (some skb, w) =>
      let mine fb := w.st.ops fb = .eth ∧ (w.area k fb).dev = f.dev
      match (w.st.vlinks.filter (mine ·)).getLast? with
      | none => drop w skb
      | some fb =>
        if (w.area k fb).port .ingress = idpUnknown then drop w skb
        else (sendFrom k n (e.withWorld w) fb skb .ingress).map fun r => (.consumed, r.2)

/-- `fb_ethvlink_handle_frame_virt`. -/
def fbEthvlinkHandleFrameVirt (k : Kernel) (n : ℕ) (e : Engine World) (fb : Addr) (skb : Skb) :
    Option (Engine World) :=
  if (e.world.area k fb).port .ingress = idpUnknown then
    some (e.withWorld (kfreeSkb e.world skb))
  else (sendFrom k n e fb skb .ingress).map Prod.snd

/-- `lana_proto_sendmsg` once the packet is there: unlike the two above it does not look whether the
port is in use. -/
def lanaProtoSendmsg (k : Kernel) (n : ℕ) (e : Engine World) (fb : Addr) (skb : Skb) :
    Option (Engine World) :=
  (sendFrom k n e fb skb .egress).map Prod.snd

end Lana
