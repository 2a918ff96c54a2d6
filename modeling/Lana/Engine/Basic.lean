import Lana.Fblock.State

/-!
# The packet processing engine

`process_packet` of `xt_engine.c` on one CPU, for any implementation of the blocks.  What a
`netfb_rx` does is a tree: it may call `process_packet` and `engine_backlog_tail` before it returns
(`Rx`), and the engine runs the calls as it runs its own.  The loops of the engine need not end;
they take fuel, and `none` stands for a run that is not over yet.

A packet that has been handed over (freed, queued, put on the backlog) is not touched by its former
owner any more, so that packets are values.  `id` and `hop` of a packet and the trace of the engine
are not part of the source.
-/

namespace Lana

/-- `PPE_SUCCESS`. -/
def ppeSuccess : ℤ := 0

/-- `PPE_DROPPED`. -/
def ppeDropped : ℤ := 1

/-- `PPE_HALT`. -/
def ppeHalt : ℤ := ppeDropped

/-- `PPE_ERROR`. -/
def ppeError : ℤ := 2

/-! ## Packets -/

/-- How a packet is made from another one. -/
inductive Making where
  | copy
  | clone
  deriving DecidableEq, Repr

/-- The identity of a packet: that of the packet handed in from outside, and for each time it was
made from another packet how and after how many hops. -/
@[ext]
structure PktId where
  root : ℕ
  path : List (Making × ℕ)
  deriving DecidableEq, Repr

/-- `struct sk_buff` with the `struct sock_lana_inf` in its control buffer. -/
structure Skb where
  id : PktId
  /-- How often the next idp was written. -/
  hop : ℕ
  len : UInt32
  /-- The number of references to the packet. -/
  users : ℕ
  idpDst : Idp
  idpSrc : Idp
  dir : PathType
  deriving DecidableEq

/-- `write_next_idp_to_skb`. -/
def writeNextIdpToSkb (skb : Skb) (src dst : Idp) : Skb :=
  { skb with idpDst := dst, idpSrc := src, hop := skb.hop + 1 }

/-- `read_next_idp_from_skb`. -/
def readNextIdpFromSkb (skb : Skb) : Idp := skb.idpDst

/-- `write_path_to_skb`. -/
def writePathToSkb (skb : Skb) (dir : PathType) : Skb := { skb with dir := dir }

/-- `read_path_from_skb`. -/
def readPathFromSkb (skb : Skb) : PathType := skb.dir

/-! ## Blocks seen from the engine -/

/-- A `netfb_rx` in progress, in the world `w`: it returns the packet, the direction and a code, or
calls the engine and goes on. -/
inductive Rx (σ : Type*) where
  | ret (w : σ) (skb : Skb) (dir : PathType) (code : ℤ)
  | processPacket (w : σ) (skb : Skb) (dir : PathType) (k : σ → ℤ → Rx σ)
  | engineBacklogTail (w : σ) (skb : Skb) (dir : PathType) (k : σ → Rx σ)

/-- What the engine calls. -/
structure Backend (σ : Type*) where
  /-- `__search_fblock` -/
  searchFblock : σ → Idp → Option Addr × σ
  /-- `fb->netfb_rx` -/
  netfbRx : σ → Addr → Skb → PathType → Rx σ
  /-- `put_fblock` -/
  putFblock : σ → Addr → σ
  /-- `kfree_skb` -/
  kfreeSkb : σ → Skb → σ

/-! ## The engine of one CPU -/

/-- What happens, in order. -/
inductive Event where
  /-- A packet is taken up. -/
  | start (skb : Skb) (dir : PathType)
  /-- `netfb_rx` is invoked. -/
  | enter (fb : Addr)
  /-- `netfb_rx` returns. -/
  | leave (fb : Addr)
  /-- `engine_backlog_tail` is called. -/
  | enqueue (skb : Skb) (dir : PathType)
  deriving DecidableEq

/-- `struct engine_disc` and `struct engine_iostats`. -/
structure Engine (σ : Type*) where
  world : σ
  backlog : List Skb
  active : Bool
  pkts : UInt64
  bytes : UInt64
  fblocks : UInt64
  trace : List Event

namespace Engine

variable {σ : Type*}

/-- An engine with nothing to do. -/
def idle (w : σ) : Engine σ :=
  { world := w, backlog := [], active := false, pkts := 0, bytes := 0, fblocks := 0, trace := [] }

def withWorld (e : Engine σ) (w : σ) : Engine σ := { e with world := w }

def note (e : Engine σ) (ev : Event) : Engine σ := { e with trace := e.trace ++ [ev] }

end Engine

open Engine

section Engine

variable {σ : Type*}

/-- `engine_backlog_tail`. -/
def engineBacklogTail (e : Engine σ) (skb : Skb) (dir : PathType) : Engine σ :=
  ({ e with backlog := e.backlog ++ [writePathToSkb skb dir] }).note (.enqueue skb dir)

/-- `engine_backlog_test_reduce`. -/
def engineBacklogTestReduce (e : Engine σ) : Option (Skb × PathType) × Engine σ :=
  match e.backlog with
  | [] => (none, e)
  | skb :: rest => (some (skb, readPathFromSkb skb), { e with backlog := rest })

/-- The calls of a `netfb_rx`, with `pp` for `process_packet`. -/
def runRx (pp : Engine σ → Skb → PathType → Option (ℤ × Engine σ)) :
    Rx σ → Engine σ → Option ((Skb × PathType × ℤ) × Engine σ)
  | .ret w skb dir code, e => some ((skb, dir, code), e.withWorld w)
  | .processPacket w skb dir k, e =>
    match pp (e.withWorld w) skb dir with
    | none => none
    | some (ret, e) => runRx pp (k e.world ret) e
  | .engineBacklogTail w skb dir k, e => runRx pp (k w) (engineBacklogTail (e.withWorld w) skb dir)

/-- After `netfb_rx`: the block is put and counted. -/
def leaveFblock (B : Backend σ) (e : Engine σ) (fb : Addr) : Engine σ :=
  { (e.note (.leave fb)) with
    world := B.putFblock e.world fb
    fblocks := e.fblocks + 1 }

/-- The `while` loop of `process_packet`: one packet from block to block. -/
def hopLoop (B : Backend σ) (pp : Engine σ → Skb → PathType → Option (ℤ × Engine σ)) :
    ℕ → Engine σ → Skb → PathType → ℤ → Option (ℤ × Engine σ)
  | 0, _, _, _, _ => none
  | n + 1, e, skb, dir, ret =>
    if readNextIdpFromSkb skb = idpUnknown then some (ret, e)
    else
      match B.searchFblock e.world (readNextIdpFromSkb skb) with
      | (none, w) => some (ppeError, e.withWorld (B.kfreeSkb w skb))
      | (some fb, w) =>
        match runRx pp (B.netfbRx w fb skb dir) ((e.withWorld w).note (.enter fb)) with
        | none => none
        | some ((skb, dir, code), e) =>
          let e := leaveFblock B e fb
          if code = ppeDropped then some (ppeDropped, e) else hopLoop B pp n e skb dir code

/-- The bookkeeping at the label `pkt`. -/
def takeUp (e : Engine σ) (skb : Skb) (dir : PathType) : Engine σ :=
  { (e.note (.start skb dir)) with
    active := true
    pkts := e.pkts + 1
    bytes := e.bytes + skb.len.toUInt64 }

/-- From the label `pkt` on: one packet after the other until the backlog is empty. -/
def pktLoop (B : Backend σ) (pp : Engine σ → Skb → PathType → Option (ℤ × Engine σ)) :
    ℕ → Engine σ → Skb → PathType → Option (ℤ × Engine σ)
  | 0, _, _, _ => none
  | n + 1, e, skb, dir =>
    match hopLoop B pp n (takeUp e skb dir) skb dir ppeError with
    | none => none
    | some (ret, e) =>
      match engineBacklogTestReduce e with
      | (some (skb, dir), e) => pktLoop B pp n e skb dir
      | (none, e) => some (ret, { e with active := false })

/-- `process_packet`. -/
def processPacket (B : Backend σ) : ℕ → Engine σ → Skb → PathType → Option (ℤ × Engine σ)
  | 0, _, _, _ => none
  | n + 1, e, skb, dir =>
    if e.active then some (0, engineBacklogTail e skb dir)
    else pktLoop B (processPacket B n) n e skb dir

end Engine

end Lana
