import Lana.Engine.Basic
import Mathlib.Data.UInt

/-!
# Run to completion

While a packet is processed the engine is active, so that a nested `process_packet` only puts its
packet on the backlog.  An outermost call takes up its own packet, then those on the backlog in the
order in which they were put there, and ends inactive with an empty backlog (`run_to_completion`).
-/

namespace Lana

open Engine

/-! ## Reading a trace -/

/-- The packets that are taken up, with their directions. -/
def starts (tr : List Event) : List (Skb × PathType) :=
  tr.filterMap fun
    | .start skb dir => some (skb, dir)
    | _ => none

/-- The packets that are put on the backlog, with the directions given. -/
def enqueued (tr : List Event) : List (Skb × PathType) :=
  tr.filterMap fun
    | .enqueue skb dir => some (skb, dir)
    | _ => none

/-- The blocks whose `netfb_rx` is invoked. -/
def enters (tr : List Event) : List Addr :=
  tr.filterMap fun
    | .enter fb => some fb
    | _ => none

/-- Whether a `netfb_rx` is running after the trace; `none` when one was invoked while another was
running. -/
def track : Bool → List Event → Option Bool
  | running, [] => some running
  | running, .enter _ :: tr => if running then none else track true tr
  | running, .leave _ :: tr => if running then track false tr else none
  | running, .start _ _ :: tr => track running tr
  | running, .enqueue _ _ :: tr => track running tr

theorem starts_append (t u : List Event) : starts (t ++ u) = starts t ++ starts u :=
  List.filterMap_append

theorem enqueued_append (t u : List Event) : enqueued (t ++ u) = enqueued t ++ enqueued u :=
  List.filterMap_append

theorem enters_append (t u : List Event) : enters (t ++ u) = enters t ++ enters u :=
  List.filterMap_append

theorem track_append (t u : List Event) : ∀ running,
    track running (t ++ u) = (track running t).bind fun running => track running u := by
  induction t with
  | nil => exact fun _ => rfl
  | cons ev t ih =>
    intro running
    cases ev with
    | start skb dir => exact ih running
    | enqueue skb dir => exact ih running
    | enter fb =>
      cases running
      · exact ih true
      · rfl
    | leave fb =>
      cases running
      · rfl
      · exact ih false

/-- A packet as it stands on the backlog, and the direction it will start with. -/
def onBacklog (p : Skb × PathType) : Skb := writePathToSkb p.1 p.2

/-! ## Inside a packet -/

section Active

variable {σ : Type*} {B : Backend σ} {pp : Engine σ → Skb → PathType → Option (ℤ × Engine σ)}

/-- Between `e` and `e'`, in which the engine stays active, `tr` happens and no packet is taken
up. -/
structure Busy (e e' : Engine σ) (tr : List Event) : Prop where
  active : e'.active = true
  trace : e'.trace = e.trace ++ tr
  backlog : e'.backlog = e.backlog ++ (enqueued tr).map onBacklog
  pkts : e'.pkts = e.pkts
  bytes : e'.bytes = e.bytes
  fblocks : e'.fblocks = e.fblocks + UInt64.ofNat (enters tr).length
  starts : starts tr = []

theorem Busy.world {e : Engine σ} (h : e.active = true) (w : σ) : Busy e (e.withWorld w) [] where
  active := h
  trace := (List.append_nil _).symm
  backlog := (List.append_nil _).symm
  pkts := rfl
  bytes := rfl
  fblocks := (UInt64.add_zero e.fblocks).symm
  starts := rfl

theorem Busy.refl {e : Engine σ} (h : e.active = true) : Busy e e [] :=
  Busy.world h e.world

theorem Busy.trans {e e' e'' : Engine σ} {t u : List Event} (h : Busy e e' t) (h' : Busy e' e'' u) :
    Busy e e'' (t ++ u) where
  active := h'.active
  trace := by rw [h'.trace, h.trace, List.append_assoc]
  backlog := by rw [h'.backlog, h.backlog, enqueued_append, List.map_append, List.append_assoc]
  pkts := h'.pkts.trans h.pkts
  bytes := h'.bytes.trans h.bytes
  fblocks := by
    rw [h'.fblocks, h.fblocks, enters_append, List.length_append, UInt64.ofNat_add,
      UInt64.add_assoc]
  starts := by rw [starts_append, h.starts, h'.starts]; rfl

theorem Busy.tail {e : Engine σ} (h : e.active = true) (skb : Skb) (dir : PathType) :
    Busy e (engineBacklogTail e skb dir) [.enqueue skb dir] where
  active := h
  trace := rfl
  backlog := rfl
  pkts := rfl
  bytes := rfl
  fblocks := (UInt64.add_zero e.fblocks).symm
  starts := rfl

theorem Busy.world_tail {e : Engine σ} (h : e.active = true) (w : σ) (skb : Skb) (dir : PathType) :
    Busy e (engineBacklogTail (e.withWorld w) skb dir) [.enqueue skb dir] :=
  (Busy.world h w).trans (Busy.tail (e := e.withWorld w) h skb dir)

/-- A nested call finds the engine active. -/
theorem processPacket_active {n : ℕ} {e e' : Engine σ} {skb : Skb} {dir : PathType} {ret : ℤ}
    (hact : e.active = true) (h : processPacket B n e skb dir = some (ret, e')) :
    e' = engineBacklogTail e skb dir := by
  cases n with
  | zero => cases h
  | succ n =>
    unfold processPacket at h
    rw [if_pos hact] at h
    exact (Prod.mk.inj (Option.some.inj h)).2.symm

/-- A `netfb_rx` can only put packets on the backlog. -/
theorem runRx_busy {n : ℕ} (rx : Rx σ) :
    ∀ {e e' : Engine σ} {out : Skb × PathType × ℤ}, e.active = true →
      runRx (processPacket B n) rx e = some (out, e') →
      ∃ q : List (Skb × PathType), Busy e e' (q.map fun p => .enqueue p.1 p.2) := by
  induction rx with
  | ret w skb dir code =>
    intro e e' out hact h
    obtain ⟨-, rfl⟩ := Prod.mk.inj (Option.some.inj h)
    exact ⟨[], .world hact w⟩
  | processPacket w skb dir k ih =>
    intro e e' out hact h
    unfold runRx at h
    rcases hp : processPacket B n (e.withWorld w) skb dir with _ | ⟨ret, e1⟩ <;> rw [hp] at h
    · cases h
    · obtain rfl := processPacket_active (e := e.withWorld w) hact hp
      obtain ⟨q, hq⟩ := ih _ _ (e := engineBacklogTail (e.withWorld w) skb dir) hact h
      exact ⟨(skb, dir) :: q, (Busy.world_tail hact w skb dir).trans hq⟩
  | engineBacklogTail w skb dir k ih =>
    intro e e' out hact h
    obtain ⟨q, hq⟩ := ih _ (e := engineBacklogTail (e.withWorld w) skb dir) hact h
    exact ⟨(skb, dir) :: q, (Busy.world_tail hact w skb dir).trans hq⟩

/-- What calls of `engine_backlog_tail` look like. -/
def enqueues (q : List (Skb × PathType)) : List Event := q.map fun p => .enqueue p.1 p.2

theorem track_enqueues (q : List (Skb × PathType)) (running : Bool) :
    track running (enqueues q) = some running := by
  induction q with
  | nil => rfl
  | cons p q ih => exact ih

theorem enters_enqueues (q : List (Skb × PathType)) : enters (enqueues q) = [] := by
  induction q with
  | nil => rfl
  | cons p q ih => exact ih

/-- One `netfb_rx` from its invocation to the put of the block. -/
theorem visit_busy {n : ℕ} {e e' : Engine σ} {fb : Addr} {w : σ} {rx : Rx σ}
    {out : Skb × PathType × ℤ} (hact : e.active = true)
    (h : runRx (processPacket B n) rx ((e.withWorld w).note (.enter fb)) = some (out, e')) :
    ∃ tr, Busy e (leaveFblock B e' fb) tr ∧ track false tr = some false := by
  obtain ⟨q, hq⟩ := runRx_busy rx (e := (e.withWorld w).note (.enter fb)) hact h
  have hcons : ∀ t, .enter fb :: t ++ [.leave fb] = [.enter fb] ++ t ++ [Event.leave fb] :=
    fun _ => rfl
  refine ⟨.enter fb :: enqueues q ++ [.leave fb],
    ⟨hq.active, ?_, ?_, hq.pkts, hq.bytes, ?_, ?_⟩, ?_⟩
  · show e'.trace ++ [.leave fb] = _
    rw [hq.trace, hcons]
    simp only [← List.append_assoc]
    rfl
  · show e'.backlog = _
    rw [hq.backlog, hcons, enqueued_append, enqueued_append]
    show _ = e.backlog ++ (([] ++ enqueued (enqueues q)) ++ []).map onBacklog
    rw [List.nil_append, List.append_nil]
    rfl
  · show e'.fblocks + 1 = _
    rw [hq.fblocks, hcons, enters_append, enters_append]
    have hq0 : enters (q.map fun p => .enqueue p.1 p.2) = [] := enters_enqueues q
    have henter : enters [.enter fb] = [fb] := rfl
    have hleave : enters [.leave fb] = [] := rfl
    rw [hq0, enters_enqueues, henter, hleave, List.append_nil, List.append_nil]
    exact congrArg (· + 1) (UInt64.add_zero e.fblocks)
  · rw [hcons, starts_append, starts_append]
    show [] ++ starts (enqueues q) ++ [] = []
    rw [List.nil_append, List.append_nil]
    exact hq.starts
  · rw [List.cons_append]
    show track true (enqueues q ++ [.leave fb]) = some false
    rw [track_append, track_enqueues]
    rfl

/-- One packet from block to block. -/
theorem hopLoop_busy {n : ℕ} : ∀ (m : ℕ) {e e' : Engine σ} {skb : Skb} {dir : PathType}
    {ret ret' : ℤ}, e.active = true →
      hopLoop B (processPacket B n) m e skb dir ret = some (ret', e') →
      ∃ tr, Busy e e' tr ∧ track false tr = some false := by
  intro m
  induction m with
  | zero => exact fun _ h => by cases h
  | succ m ih =>
    intro e e' skb dir ret ret' hact h
    unfold hopLoop at h
    split_ifs at h with hidp
    · obtain ⟨-, rfl⟩ := Prod.mk.inj (Option.some.inj h)
      exact ⟨[], .refl hact, rfl⟩
    rcases hs : B.searchFblock e.world (readNextIdpFromSkb skb) with ⟨_ | fb, w⟩ <;> rw [hs] at h
    · obtain ⟨-, rfl⟩ := Prod.mk.inj (Option.some.inj h)
      exact ⟨[], .world hact _, rfl⟩
    · dsimp only at h
      rcases hr : runRx (processPacket B n) (B.netfbRx w fb skb dir)
        ((e.withWorld w).note (.enter fb)) with _ | ⟨⟨skb1, dir1, code⟩, e1⟩ <;> rw [hr] at h
      · cases h
      · obtain ⟨tr, hbusy, htrack⟩ := visit_busy hact hr
        dsimp only at h
        split_ifs at h with hcode
        · obtain ⟨-, rfl⟩ := Prod.mk.inj (Option.some.inj h)
          exact ⟨tr, hbusy, htrack⟩
        · obtain ⟨tr', hbusy', htrack'⟩ := ih hbusy.active h
          refine ⟨tr ++ tr', hbusy.trans hbusy', ?_⟩
          rw [track_append, htrack]
          exact htrack'

end Active

/-! ## From packet to packet -/

section Outermost

variable {σ : Type*} {B : Backend σ}

/-- The packets on the backlog with the directions they will start with. -/
def pending (q : List Skb) : List (Skb × PathType) := q.map fun skb => (skb, readPathFromSkb skb)

/-- What one run of the engine does. -/
structure Completed (e e' : Engine σ) (skb : Skb) (dir : PathType) (tr : List Event) : Prop where
  trace : e'.trace = e.trace ++ tr
  serial : track false tr = some false
  fifo : starts tr = (skb, dir) :: pending (e.backlog ++ (enqueued tr).map onBacklog)
  backlog : e'.backlog = []
  active : e'.active = false
  pkts : e'.pkts = e.pkts + UInt64.ofNat (starts tr).length
  bytes : e'.bytes = e.bytes + ((starts tr).map fun p => p.1.len.toUInt64).sum
  fblocks : e'.fblocks = e.fblocks + UInt64.ofNat (enters tr).length

section OnePacket

variable {e e1 e' : Engine σ} {skb skb2 : Skb} {dir : PathType} {tr tr2 : List Event}
  {rest : List Skb}

/-- The packet is over and nothing is on the backlog. -/
theorem Completed.last (h : Busy (takeUp e skb dir) e1 tr) (htrack : track false tr = some false)
    (hb : e1.backlog = []) :
    Completed e { e1 with active := false } skb dir (.start skb dir :: tr) := by
  have hstarts : starts (.start skb dir :: tr) = [(skb, dir)] := congrArg ((skb, dir) :: ·) h.starts
  have henters : enters (.start skb dir :: tr) = enters tr := rfl
  refine ⟨?_, htrack, ?_, hb, rfl, ?_, ?_, ?_⟩
  · show e1.trace = _
    rw [h.trace]
    exact List.append_assoc _ [_] _
  · have hnil : e.backlog ++ (enqueued tr).map onBacklog = [] := h.backlog.symm.trans hb
    rw [hstarts]
    show _ = (skb, dir) :: pending (e.backlog ++ (enqueued tr).map onBacklog)
    rw [hnil]
    rfl
  · rw [hstarts]
    exact h.pkts
  · rw [hstarts]
    have hbytes : e1.bytes = e.bytes + skb.len.toUInt64 := h.bytes
    rw [List.map_singleton, List.sum_cons, List.sum_nil, UInt64.add_zero]
    exact hbytes
  · rw [henters]
    exact h.fblocks

/-- The packet is over and the next one is taken from the backlog. -/
theorem Completed.next (h : Busy (takeUp e skb dir) e1 tr) (htrack : track false tr = some false)
    (hb : e1.backlog = skb2 :: rest)
    (h2 : Completed { e1 with backlog := rest } e' skb2 (readPathFromSkb skb2) tr2) :
    Completed e e' skb dir (.start skb dir :: tr ++ tr2) := by
  have hstarts : starts (.start skb dir :: tr ++ tr2) = (skb, dir) :: starts tr2 := by
    rw [starts_append]
    exact congrArg (fun l => (skb, dir) :: l ++ starts tr2) h.starts
  refine ⟨?_, ?_, ?_, h2.backlog, h2.active, ?_, ?_, ?_⟩
  · rw [h2.trace]
    show e1.trace ++ tr2 = _
    rw [h.trace]
    show e.trace ++ [.start skb dir] ++ tr ++ tr2 = _
    simp only [List.append_assoc, List.cons_append, List.nil_append]
  · show track false (tr ++ tr2) = some false
    rw [track_append, htrack]
    exact h2.serial
  · have hq : e.backlog ++ (enqueued tr).map onBacklog = skb2 :: rest := h.backlog.symm.trans hb
    rw [hstarts, h2.fifo, enqueued_append, List.map_append]
    show _ = (skb, dir) :: pending (e.backlog ++ ((enqueued tr).map onBacklog ++ _))
    rw [← List.append_assoc, hq]
    rfl
  · rw [h2.pkts, hstarts]
    show e1.pkts + _ = _
    rw [h.pkts, List.length_cons, Nat.add_comm, UInt64.ofNat_add, ← UInt64.add_assoc]
    rfl
  · rw [h2.bytes, hstarts]
    show e1.bytes + _ = _
    rw [h.bytes, List.map_cons, List.sum_cons, ← UInt64.add_assoc]
    rfl
  · rw [h2.fblocks, enters_append, List.length_append, UInt64.ofNat_add, ← UInt64.add_assoc]
    exact congrArg (· + _) h.fblocks

end OnePacket

theorem pktLoop_completed {n : ℕ} : ∀ (m : ℕ) {e e' : Engine σ} {skb : Skb} {dir : PathType}
    {ret : ℤ}, pktLoop B (processPacket B n) m e skb dir = some (ret, e') →
      ∃ tr, Completed e e' skb dir tr := by
  intro m
  induction m with
  | zero => exact fun h => by cases h
  | succ m ih =>
    intro e e' skb dir ret h
    unfold pktLoop at h
    rcases hh : hopLoop B (processPacket B n) m (takeUp e skb dir) skb dir ppeError with
      _ | ⟨ret1, e1⟩ <;> rw [hh] at h
    · cases h
    obtain ⟨tr, hbusy, htrack⟩ := hopLoop_busy m (e := takeUp e skb dir) rfl hh
    dsimp only at h
    unfold engineBacklogTestReduce at h
    rcases hb : e1.backlog with _ | ⟨skb2, rest⟩ <;> rw [hb] at h
    · obtain ⟨-, rfl⟩ := Prod.mk.inj (Option.some.inj h)
      exact ⟨_, .last hbusy htrack hb⟩
    · obtain ⟨tr2, h2⟩ := ih h
      exact ⟨_, .next hbusy htrack hb h2⟩

/-- **Run to completion.** Whatever the blocks do, in an outermost call that ends no `netfb_rx` is
invoked while another one runs; the caller's packet is taken up first, then the packets of the
backlog and those put there meanwhile, in order, once each and with the recorded direction; the
backlog is empty afterwards; the counters have grown by the packets, their lengths and the calls of
`netfb_rx`. -/
theorem run_to_completion {n : ℕ} {e e' : Engine σ} {skb : Skb} {dir : PathType} {ret : ℤ}
    (hidle : e.active = false) (h : processPacket B n e skb dir = some (ret, e')) :
    ∃ tr, e'.trace = e.trace ++ tr ∧ track false tr = some false ∧
      starts tr = (skb, dir) :: (e.backlog.map (fun q => (q, readPathFromSkb q)) ++
        (enqueued tr).map fun p => (writePathToSkb p.1 p.2, p.2)) ∧
      e'.backlog = [] ∧ e'.active = false ∧
      e'.pkts = e.pkts + UInt64.ofNat (starts tr).length ∧
      e'.bytes = e.bytes + ((starts tr).map fun p => p.1.len.toUInt64).sum ∧
      e'.fblocks = e.fblocks + UInt64.ofNat (enters tr).length := by
  cases n with
  | zero => cases h
  | succ n =>
    unfold processPacket at h
    rw [hidle] at h
    obtain ⟨tr, htr⟩ := pktLoop_completed n h
    refine ⟨tr, htr.trace, htr.serial, ?_, htr.backlog, htr.active, htr.pkts, htr.bytes, htr.fblocks⟩
    rw [htr.fifo, pending, List.map_append, List.map_map]
    rfl

end Outermost

/-- A block that sends a first packet on by a nested call and by the backlog, and takes any
other. -/
def resender : Backend Unit where
  searchFblock w _ := (some 0, w)
  netfbRx w _ skb dir :=
    let next := writeNextIdpToSkb skb 1 1
    if skb.hop = 0 then
      .processPacket w next .ingress fun w _ =>
        .engineBacklogTail w next .egress fun w => .ret w skb dir ppeDropped
    else .ret w skb dir ppeDropped
  putFblock w _ := w
  kfreeSkb w _ := w

/-- A packet of ten bytes for the block 1. -/
def tenBytes (n : ℕ) : Skb :=
  { id := ⟨n, []⟩, hop := 0, len := 10, users := 1, idpDst := 1, idpSrc := 0, dir := .egress }

/-- Two packets, one of them on the backlog, become six; those that are sent on go in the directions
they are sent in. -/
theorem run_to_completion_nested : ∃ ret e',
    processPacket resender 8 { Engine.idle () with backlog := [tenBytes 1] } (tenBytes 0) .egress =
      some (ret, e') ∧
    track false e'.trace = some false ∧ e'.backlog = [] ∧ e'.active = false ∧
    (starts e'.trace).map Prod.snd = [.egress, .egress, .ingress, .egress, .ingress, .egress] ∧
    (enters e'.trace).length = 6 := by
  obtain ⟨⟨ret, e'⟩, hrun⟩ : ∃ r, processPacket resender 8
    { Engine.idle () with backlog := [tenBytes 1] } (tenBytes 0) .egress = some r := ⟨_, rfl⟩
  have hlen : (processPacket resender 8 { Engine.idle () with backlog := [tenBytes 1] } (tenBytes 0)
    .egress).map (fun r => (enters r.2.trace).length) = some 6 := rfl
  have hsent : (processPacket resender 8 { Engine.idle () with backlog := [tenBytes 1] } (tenBytes 0)
    .egress).map (fun r => (enqueued r.2.trace).map Prod.snd) =
      some [.ingress, .egress, .ingress, .egress] := rfl
  rw [hrun] at hlen hsent
  obtain ⟨tr, htrace, hserial, hstarts, hbacklog, hactive, -⟩ := run_to_completion rfl hrun
  obtain rfl : e'.trace = tr := htrace
  refine ⟨ret, e', hrun, hserial, hbacklog, hactive, ?_, Option.some.inj hlen⟩
  have hdirs : (enqueued e'.trace).map Prod.snd = [.ingress, .egress, .ingress, .egress] :=
    Option.some.inj hsent
  rw [hstarts, List.map_cons, List.map_append, List.map_map (l := enqueued e'.trace)]
  exact congrArg (fun l => [PathType.egress, .egress] ++ l) hdirs

end Lana
