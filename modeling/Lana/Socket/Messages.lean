import Lana.Engine.Blocks
import Lana.User.Commands

/-!
# Messages

The calls of `fb_pflana.c` by which a process sends and receives on a PF_LANA socket, with the
receive queues of the sockets and the contents of the packets around the engine.  A message goes
through the engine before `sendmsg` returns; what a socket takes on the way is put at the end of its
receive queue.  Frames that come in from devices take the same way in the other direction.

Blocks do not touch the bytes of a packet, so that the contents of a copy or clone are those of the
packet sent.  References to devices, which the calls give back before they return, are left out.
-/

namespace Lana

open Engine

/-- The errors of the socket calls. -/
inductive MsgErrno where
  | EDESTADDRREQ
  | EINVAL
  | EAFNOSUPPORT
  | EIO
  | ENODEV
  | EFAULT
  /-- What the socket layer reports: no memory, nothing to receive, a signal. -/
  | sock (e : ℕ)
  deriving DecidableEq

/-- `AF_LANA`. -/
def afLana : ℕ := 27

/-- `sizeof(struct sockaddr)`. -/
def sizeofSockaddr : ℕ := 16

/-- A `struct sockaddr` that a process hands in, with its length; `data` is the first byte of
`sa_data`, a `char`. -/
structure SockAddr where
  len : ℕ
  family : ℕ
  data : ℤ

/-- What a send looks at in a device: `IFF_UP` and `mtu`. -/
structure SendDev where
  up : Bool
  mtu : ℕ

/-- The devices at the moment of a call. -/
structure SendDevs where
  /-- `dev_get_by_index` -/
  byIndex : ℤ → Option SendDev
  /-- `dev_getfirstbyhwtype(net, ETH_P_ALL)` -/
  firstByHwtype : Option SendDev

/-- The fields of a socket that choose the device: `sk_bound_dev_if`, and `ifindex` and `bound` of
`struct lana_sock`. -/
structure SockOpts where
  boundDevIf : ℤ
  ifindex : ℤ
  bound : Bool

/-! ## Single calls -/

/-- `lana_raw_bind`. -/
def lanaRawBind (devs : SendDevs) (o : SockOpts) (addr : SockAddr) :
    Except MsgErrno Unit × SockOpts :=
  if addr.len < sizeofSockaddr then (.error .EINVAL, o)
  else if addr.family ≠ afLana then (.error .EINVAL, o)
  else
    match devs.byIndex addr.data with
    | none => (.error .ENODEV, o)
    | some _ => (.ok (), { o with ifindex := addr.data, bound := true })

/-- The device `lana_proto_sendmsg` looks up. -/
def SockOpts.device (devs : SendDevs) (o : SockOpts) : Option SendDev :=
  if o.boundDevIf ≠ 0 ∨ o.bound then devs.byIndex (if o.bound then o.ifindex else o.boundDevIf)
  else devs.firstByHwtype

/-- A call of `sendmsg`. -/
structure SendCall where
  /-- `msg->msg_name` -/
  name : Option SockAddr
  /-- the bytes of `msg->msg_iov` -/
  data : List UInt8
  /-- the error of `sock_alloc_send_skb`, if there is one -/
  alloc : Option ℕ
  /-- `memcpy_fromiovec` can read the bytes -/
  readable : Bool

/-- What comes of a call of `sendmsg`: the number of bytes, an error, or `dev_put` of a null
pointer. -/
inductive SendRes where
  | sent (len : ℕ)
  | failed (e : MsgErrno)
  | oops
  deriving DecidableEq

/-- `lana_proto_sendmsg` before there is a packet: what it returns without one. -/
def SendCall.refusal (devs : SendDevs) (o : SockOpts) (c : SendCall) : Option SendRes :=
  match c.name with
  | none => some (.failed .EDESTADDRREQ)
  | some target =>
    if target.len < sizeofSockaddr then some (.failed .EINVAL)
    else if target.family ≠ afLana then some (.failed .EAFNOSUPPORT)
    else
      match o.device devs with
      | none => some .oops
      | some dev =>
        if !dev.up ∨ c.data.length > dev.mtu then some (.failed MsgErrno.EIO)
        else
          match c.alloc with
          | some e => some (.failed (.sock e))
          | none => if c.readable then none else some (.failed .EFAULT)

/-- A call of `recvmsg`. -/
structure RecvCall where
  sock : ℕ
  len : ℕ
  /-- `MSG_PEEK` -/
  peek : Bool
  /-- `sk_shutdown & RCV_SHUTDOWN` -/
  shutdown : Bool
  /-- the error of `skb_recv_datagram` when there is nothing to receive -/
  nothing : MsgErrno
  /-- `skb_copy_datagram_iovec` can write the bytes -/
  writable : Bool

/-- What comes of a call of `recvmsg`: the return value, the bytes written, `MSG_TRUNC`. -/
structure RecvRes where
  ret : Except MsgErrno ℕ
  bytes : List UInt8
  trunc : Bool

/-- `lana_proto_recvmsg` on a receive queue. -/
def lanaProtoRecvmsg (content : ℕ → List UInt8) (queue : List PktId) (c : RecvCall) :
    RecvRes × List PktId :=
  match queue with
  | [] => (⟨if c.shutdown then .ok 0 else .error c.nothing, [], false⟩, [])
  | id :: rest =>
    let data := content id.root
    let copied := if c.len < data.length then c.len else data.length
    let queue := if c.peek then id :: rest else rest
    if c.writable then (⟨.ok copied, data.take copied, c.len < data.length⟩, queue)
    else (⟨.error .EFAULT, [], c.len < data.length⟩, queue)

/-- `lana_raw_poll`: whether `POLLIN` is set. -/
def lanaRawPoll (queue : List PktId) : Bool := !queue.isEmpty

/-! ## The sockets around the engine -/

/-- The engine, and what the sockets keep.  `content` and `sent` record the messages and frames by
the numbers their packets get. -/
structure Sockets where
  engine : Engine World
  /-- by the block of the socket -/
  opts : Addr → SockOpts
  /-- `sk_receive_queue` -/
  queue : ℕ → List PktId
  content : ℕ → List UInt8
  sent : ℕ

/-- The packets that a socket takes, in the order of the deliveries. -/
def takenBy (sock : ℕ) (given : List (PktId × Disposal)) : List PktId :=
  given.filterMap fun x => if x.2 = .queued sock then some x.1 else none

namespace Sockets

/-- No socket has received anything, and no socket is bound to a device. -/
def start (s : State) : Sockets where
  engine := .idle (.of s)
  opts _ := ⟨0, 0, false⟩
  queue _ := []
  content _ := []
  sent := 0

variable (t : Sockets)

/-- A new packet with the given bytes. -/
def packet (data : List UInt8) (users : ℕ) : Skb where
  id := ⟨t.sent, []⟩
  hop := 0
  len := UInt32.ofNat data.length
  users := users
  idpDst := idpUnknown
  idpSrc := idpUnknown
  dir := .ingress

/-- The engine is done with a packet; the sockets have what it has given to them meanwhile. -/
def delivered (data : List UInt8) (e : Engine World) : Sockets :=
  { t with
    engine := e
    queue := fun sock =>
      t.queue sock ++ takenBy sock (e.world.ledger.drop t.engine.world.ledger.length)
    content := Function.update t.content t.sent data
    sent := t.sent + 1 }

/-- A receive queue after something was taken from it. -/
def setQueue (sock : ℕ) (q : List PktId) : Sockets :=
  { t with queue := Function.update t.queue sock q }

/-- `lana_raw_sendmsg`, on the socket of the block `fb`. -/
def lanaRawSendmsg (k : Kernel) (devs : SendDevs) (n : ℕ) (fb : Addr) (c : SendCall) :
    Option (SendRes × Sockets) :=
  match c.refusal devs (t.opts fb) with
  | some res => some (res, t)
  | none => (lanaProtoSendmsg k n t.engine fb (t.packet c.data 1)).map fun e =>
      (.sent c.data.length, t.delivered c.data e)

end Sockets

end Lana
