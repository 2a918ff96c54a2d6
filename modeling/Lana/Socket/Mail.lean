import Lana.Engine.Delivery
import Lana.Library.Transition
import Lana.Socket.Messages

/-!
# Mail between sockets

Seen from the processes, a stack is a set of boxes, one for each socket (`Mail`).  A message that is
sent, and a frame that comes in at a device, is put at the end of each box as often as the bindings
of that moment lead there; with a full socket or without memory for copies less often.  A receiver
takes the messages out of its box one by one, each cut to the room the receiver has for it.

Whatever commands, sends, frames and receives follow one another, the processes see nothing that the
boxes do not do (`sockets_refine_mail`): messages arrive unaltered and in the order in which they
were sent, and a send from a port that leads into no cycle returns.
-/

namespace Lana

open State Engine Worklist Transition Relation

/-! ## Events -/

/-- What the processes and the devices see: calls with what they return.  A call that sends a packet
comes with the state of the blocks at that moment. -/
inductive SockEvent where
  | cmd (c : Cmd)
  | bind (devs : SendDevs) (fb : Addr) (addr : SockAddr) (res : Except MsgErrno Unit)
  | send (k : Kernel) (devs : SendDevs) (s : State) (fb : Addr) (c : SendCall) (res : SendRes)
  | frame (k : Kernel) (s : State) (f : Frame) (data : List UInt8) (res : RxHandlerResult)
  | frameVirt (k : Kernel) (s : State) (fb : Addr) (data : List UInt8)
  | recv (c : RecvCall) (res : RecvRes)
  | poll (sock : ℕ) (ready : Bool)

/-- Commands build no filters. -/
def SockEvent.Unfiltered : SockEvent → Prop
  | .cmd c => c.Unfiltered
  | _ => True

namespace Sockets

/-- The state of the blocks. -/
abbrev st (t : Sockets) : State := t.engine.world.st

/-- The blocks after a command. -/
def controlled (t : Sockets) (c : Cmd) : Sockets :=
  { t with engine := t.engine.withWorld { t.engine.world with st := c.exec t.st } }

/-- A command; the queue of a new socket is empty (`sock_init_data`), also where the object is one
that was closed before. -/
def command (t : Sockets) : Cmd → Sockets
  | .openSock name sock al => (t.controlled (.openSock name sock al)).setQueue sock []
  | c => t.controlled c

/-- One event. -/
inductive Step : Sockets → SockEvent → Sockets → Prop
  | cmd (t : Sockets) (c : Cmd) : Step t (.cmd c) (t.command c)
  | bind (t : Sockets) (devs : SendDevs) (fb : Addr) (addr : SockAddr) :
      Step t (.bind devs fb addr (lanaRawBind devs (t.opts fb) addr).1)
        { t with opts := Function.update t.opts fb (lanaRawBind devs (t.opts fb) addr).2 }
  | send {t t' : Sockets} {k : Kernel} {devs : SendDevs} {n : ℕ} {fb : Addr} {c : SendCall}
      {res : SendRes} (h : t.lanaRawSendmsg k devs n fb c = some (res, t')) :
      Step t (.send k devs t.st fb c res) t'
  | frame {t : Sockets} {k : Kernel} {n : ℕ} {f : Frame} {data : List UInt8}
      {res : RxHandlerResult} {e : Engine World} (hf : f.skb = t.packet data f.skb.users)
      (h : fbEthHandleFrame k n t.engine f = some (res, e)) :
      Step t (.frame k t.st f data res) (t.delivered data e)
  | frameVirt {t : Sockets} {k : Kernel} {n : ℕ} {fb : Addr} {data : List UInt8}
      {e : Engine World}
      (h : fbEthvlinkHandleFrameVirt k n t.engine fb (t.packet data 1) = some e) :
      Step t (.frameVirt k t.st fb data) (t.delivered data e)
  | recv (t : Sockets) (c : RecvCall) :
      Step t (.recv c (lanaProtoRecvmsg t.content (t.queue c.sock) c).1)
        (t.setQueue c.sock (lanaProtoRecvmsg t.content (t.queue c.sock) c).2)
  | poll (t : Sockets) (sock : ℕ) : Step t (.poll sock (lanaRawPoll (t.queue sock))) t

end Sockets

/-! ## Boxes -/

/-- The messages that wait at each socket, in the order in which they will be received. -/
abbrev Mail := ℕ → List (List UInt8)

/-- A message is put into the boxes, `n sock` times into that of `sock`. -/
def Mail.post (m : Mail) (n : ℕ → ℕ) (data : List UInt8) : Mail := fun sock =>
  m sock ++ List.replicate (n sock) data

/-- What a receiver is answered from a box. -/
def answerFrom (box : List (List UInt8)) (c : RecvCall) : RecvRes :=
  match box with
  | [] => ⟨if c.shutdown then .ok 0 else .error c.nothing, [], false⟩
  | data :: _ =>
    if c.writable then ⟨.ok (min c.len data.length), data.take c.len, c.len < data.length⟩
    else ⟨.error .EFAULT, [], c.len < data.length⟩

/-- The block to which a frame is handed. -/
def frameBlock (k : Kernel) (s : State) (f : Frame) : Option Addr :=
  if f.loopback ∨ f.validSource = false ∨ skbShared f.skb ∧ k.skbClone f.skb = false then none
  else (s.vlinks.filter fun fb => s.ops fb = .eth ∧ (s.privateData fb k.cpu).dev = f.dev).getLast?

namespace Mail

/-- A message is put into the boxes to which the bindings lead from the port `dir` of `fb`. -/
inductive Posts (k : Kernel) (s : State) (fb : Addr) (dir : PathType) (data : List UInt8) :
    Mail → Mail → Prop
  | intro {m : Mail} {n : Disposal → ℕ} (h : Delivers k s fb dir n) :
      Posts k s fb dir data m (m.post (fun sock => n (.queued sock)) data)

/-- One event at the boxes. -/
inductive Step : Mail → SockEvent → Mail → Prop
  | openSock (m : Mail) (name : CStr) (sock : ℕ) (al : Alloc) :
      Step m (.cmd (.openSock name sock al)) (Function.update m sock [])
  | cmd {m : Mail} {c : Cmd} (h : ∀ name sock al, c ≠ .openSock name sock al) : Step m (.cmd c) m
  | bind (m : Mail) (devs : SendDevs) (fb : Addr) (addr : SockAddr) (res : Except MsgErrno Unit) :
      Step m (.bind devs fb addr res) m
  | send {m m' : Mail} {k : Kernel} {devs : SendDevs} {s : State} {fb : Addr} {c : SendCall}
      (h : Posts k s fb .egress c.data m m') :
      Step m (.send k devs s fb c (.sent c.data.length)) m'
  | refused {m : Mail} {k : Kernel} {devs : SendDevs} {s : State} {fb : Addr} {c : SendCall}
      {res : SendRes} (h : ∀ len, res ≠ .sent len) : Step m (.send k devs s fb c res) m
  | frame {m m' : Mail} {k : Kernel} {s : State} {f : Frame} {fb : Addr} {data : List UInt8}
      (hfb : frameBlock k s f = some fb) (h : Posts k s fb .ingress data m m') :
      Step m (.frame k s f data .consumed) m'
  | dropped {m : Mail} {k : Kernel} {s : State} {f : Frame} {data : List UInt8}
      {res : RxHandlerResult} (hfb : frameBlock k s f = none) : Step m (.frame k s f data res) m
  | frameVirt {m m' : Mail} {k : Kernel} {s : State} {fb : Addr} {data : List UInt8}
      (h : Posts k s fb .ingress data m m') : Step m (.frameVirt k s fb data) m'
  | peek {m : Mail} {c : RecvCall} (h : c.peek = true) :
      Step m (.recv c (answerFrom (m c.sock) c)) m
  | recv {m : Mail} {c : RecvCall} (h : c.peek = false) :
      Step m (.recv c (answerFrom (m c.sock) c)) (Function.update m c.sock (m c.sock).tail)
  | poll (m : Mail) (sock : ℕ) : Step m (.poll sock (m sock ≠ [])) m

end Mail

/-! ## Receive queues as boxes -/

namespace Sockets

/-- What the receive queues hold. -/
def mail (t : Sockets) : Mail := fun sock => (t.queue sock).map fun id => t.content id.root

/-- What holds between two events. -/
structure Settled (t : Sockets) : Prop where
  noBpf : NoBpf t.st
  idle : t.engine.Idle
  /-- the numbers of the packets in the queues have been given -/
  fresh : ∀ sock, ∀ id ∈ t.queue sock, id.root < t.sent

theorem length_takenBy (sock : ℕ) (given : List (PktId × Disposal)) :
    (takenBy sock given).length = (given.map Prod.snd).count (.queued sock) := by
  induction given with
  | nil => rfl
  | cons x given ih =>
    unfold takenBy at ih ⊢
    rw [List.map_cons, List.count_cons, List.filterMap_cons]
    by_cases hx : x.2 = .queued sock
    · simp [hx, ih]
    · simp [hx, ih]

theorem mem_takenBy {sock : ℕ} {given : List (PktId × Disposal)} {id : PktId}
    (h : id ∈ takenBy sock given) : ∃ x ∈ given, x.1 = id := by
  obtain ⟨x, hx, he⟩ := List.mem_filterMap.1 h
  split_ifs at he
  exact ⟨x, hx, Option.some.inj he⟩

section Delivered

variable {t : Sockets} {e : Engine World} {given : List (PktId × Disposal)} {data : List UInt8}

/-- What is given to the sockets goes to the ends of their boxes. -/
theorem mail_delivered (h : t.Settled) (hg : Gives t.engine e t.sent given) :
    (t.delivered data e).mail =
      t.mail.post (fun sock => (given.map Prod.snd).count (.queued sock)) data := by
  funext sock
  unfold mail Mail.post delivered
  dsimp only
  rw [hg.ledger, List.drop_left, List.map_append, ← length_takenBy]
  congr 1
  · refine List.map_congr_left fun id hid => ?_
    rw [Function.update_of_ne (h.fresh sock id hid).ne]
  · refine List.eq_replicate_iff.2 ⟨List.length_map _, fun b hb => ?_⟩
    obtain ⟨id, hid, rfl⟩ := List.mem_map.1 hb
    obtain ⟨x, hx, rfl⟩ := mem_takenBy hid
    rw [hg.root x hx, Function.update_self]

theorem settled_delivered (h : t.Settled) (hg : Gives t.engine e t.sent given) :
    (t.delivered data e).Settled := by
  refine ⟨hg.noBpf, hg.idle, fun sock id hid => ?_⟩
  unfold delivered at hid ⊢
  dsimp only at hid ⊢
  rw [hg.ledger, List.drop_left] at hid
  rcases List.mem_append.1 hid with hid | hid
  · exact Nat.lt_succ_of_lt (h.fresh sock id hid)
  · obtain ⟨x, hx, rfl⟩ := mem_takenBy hid
    rw [hg.root x hx]
    exact Nat.lt_succ_self _

end Delivered

theorem mail_setQueue (t : Sockets) (sock : ℕ) (q : List PktId) : (t.setQueue sock q).mail =
    Function.update t.mail sock (q.map fun id => t.content id.root) := by
  funext i
  unfold mail setQueue
  dsimp only
  by_cases hi : i = sock
  · rw [hi, Function.update_self, Function.update_self]
  · rw [Function.update_of_ne hi, Function.update_of_ne hi]

theorem settled_setQueue {t : Sockets} (h : t.Settled) {sock : ℕ} {q : List PktId}
    (hq : q.Sublist (t.queue sock)) : (t.setQueue sock q).Settled := by
  refine ⟨h.noBpf, h.idle, fun i id hid => ?_⟩
  unfold setQueue at hid
  dsimp only at hid
  rw [Function.update_apply] at hid
  split_ifs at hid with hi
  · exact h.fresh sock id (hq.subset hid)
  · exact h.fresh i id hid

end Sockets

/-! ## Frames -/

section Frames

variable {k : Kernel} {e e' : Engine World} {f : Frame} {root : ℕ} {w : World}
  {pre given : List (PktId × Disposal)}

/-- Only freed packets, made from the packet with the number `root`. -/
def FreedOnly (root : ℕ) (pre : List (PktId × Disposal)) : Prop :=
  ∀ x ∈ pre, x.1.root = root ∧ x.2 = .freed

theorem FreedOnly.count_queued (h : FreedOnly root pre) (sock : ℕ) :
    (pre.map Prod.snd).count (.queued sock) = 0 := by
  refine List.count_eq_zero.2 fun hmem => ?_
  obtain ⟨x, hx, hq⟩ := List.mem_map.1 hmem
  rw [(h x hx).2] at hq
  cases hq

theorem FreedOnly.snoc (h : FreedOnly root pre) {x : PktId} (hx : x.root = root) :
    FreedOnly root (pre ++ [(x, .freed)]) := by
  intro y hy
  rcases List.mem_append.1 hy with hy | hy
  · exact h y hy
  · rw [List.mem_singleton.1 hy]
    exact ⟨hx, rfl⟩

/-- Only freed packets are given away in the world `w`. -/
theorem gives_freed (hbpf : NoBpf e.world.st) (hidle : e.Idle) (hst : w.st = e.world.st)
    (hw : w.ledger = e.world.ledger ++ pre) (hpre : FreedOnly root pre) :
    Gives e (e.withWorld w) root pre :=
  ⟨hst ▸ hbpf, ⟨hidle.active, hidle.backlog⟩, hw, fun x hx => (hpre x hx).1⟩

/-- Packets are freed before the others are given away. -/
theorem Gives.after (h : Gives (e.withWorld w) e' root given)
    (hw : w.ledger = e.world.ledger ++ pre) (hpre : FreedOnly root pre) :
    Gives e e' root (pre ++ given) := by
  refine ⟨h.noBpf, h.idle, ?_, fun y hy => ?_⟩
  · rw [h.ledger]
    show w.ledger ++ given = _
    rw [hw, List.append_assoc]
  · rcases List.mem_append.1 hy with hy | hy
    · exact (hpre y hy).1
    · exact h.root y hy

/-- `skb_share_check` gives the packet, or a clone of it, to its only owner. -/
theorem skbShareCheck_cases (k : Kernel) (w : World) (skb : Skb) :
    ∃ pre w', w'.st = w.st ∧ w'.ledger = w.ledger ++ pre ∧ FreedOnly skb.id.root pre ∧
      ((skbShared skb ∧ k.skbClone skb = false) ∧ skbShareCheck k w skb = (none, w') ∨
        ¬(skbShared skb ∧ k.skbClone skb = false) ∧ ∃ skb', skb'.users = 1 ∧
          skb'.id.root = skb.id.root ∧ skbShareCheck k w skb = (some skb', w')) := by
  have hfreed : FreedOnly skb.id.root [(skb.id, .freed)] := by
    intro x hx
    rw [List.mem_singleton.1 hx]
    exact ⟨rfl, rfl⟩
  unfold skbShareCheck
  by_cases hshared : skbShared skb = true
  · cases hclone : k.skbClone skb with
    | true =>
      refine ⟨_, kfreeSkb (w.make skb.cloned) skb, rfl, rfl, hfreed, .inr ⟨by simp, ?_⟩⟩
      exact ⟨skb.cloned, rfl, rfl, by rw [if_pos hshared, if_pos rfl]⟩
    | false =>
      refine ⟨_, kfreeSkb w skb, rfl, rfl, hfreed, .inl ⟨⟨hshared, rfl⟩, ?_⟩⟩
      rw [if_pos hshared, if_neg Bool.false_ne_true]
  · have hown : skb.users = 1 := by
      unfold skbShared at hshared
      simpa using hshared
    refine ⟨[], w, rfl, (List.append_nil _).symm, fun _ h => absurd h List.not_mem_nil,
      .inr ⟨fun h => hshared h.1, skb, hown, rfl, if_neg hshared⟩⟩

/-- A frame is dropped, or sent from the block of its device. -/
theorem fbEthHandleFrame_gives (hbpf : NoBpf e.world.st) (hidle : e.Idle) {n : ℕ}
    {res : RxHandlerResult} (h : fbEthHandleFrame k n e f = some (res, e')) :
    ∃ given, Gives e e' f.skb.id.root given ∧
      ((frameBlock k e.world.st f = none ∧ ∀ sock, (given.map Prod.snd).count (.queued sock) = 0) ∨
        res = .consumed ∧ ∃ fb m, frameBlock k e.world.st f = some fb ∧
          Delivers k e.world.st fb .ingress m ∧
          ∀ sock, (given.map Prod.snd).count (.queued sock) = m (.queued sock)) := by
  have hnil : FreedOnly f.skb.id.root [] := fun _ h => absurd h List.not_mem_nil
  unfold fbEthHandleFrame at h
  dsimp only at h
  by_cases hloop : f.loopback = true
  · rw [if_pos hloop] at h
    obtain ⟨rfl, rfl⟩ := Prod.mk.inj (Option.some.inj h)
    refine ⟨[], gives_freed hbpf hidle rfl (List.append_nil _).symm hnil, .inl ⟨?_, fun _ => rfl⟩⟩
    exact if_pos (.inl hloop)
  rw [if_neg hloop] at h
  cases hvalid : f.validSource with
  | false =>
    rw [hvalid, if_pos (by decide)] at h
    obtain ⟨rfl, rfl⟩ := Prod.mk.inj (Option.some.inj h)
    have hpre := hnil.snoc (x := f.skb.id) rfl
    refine ⟨_, gives_freed hbpf hidle rfl rfl hpre, .inl ⟨?_, hpre.count_queued⟩⟩
    exact if_pos (.inr (.inl hvalid))
  | true =>
    rw [hvalid, if_neg (by decide)] at h
    obtain ⟨pre, w, hst, hw, hpre, ⟨hno, hcheck⟩ | ⟨hyes, skb, hown, hroot, hcheck⟩⟩ :=
      skbShareCheck_cases k e.world f.skb
    · rw [hcheck] at h
      obtain ⟨rfl, rfl⟩ := Prod.mk.inj (Option.some.inj h)
      refine ⟨_, gives_freed hbpf hidle hst hw hpre, .inl ⟨?_, hpre.count_queued⟩⟩
      exact if_pos (.inr (.inr hno))
    rw [hcheck] at h
    dsimp only at h
    have hblock : frameBlock k e.world.st f = (w.st.vlinks.filter fun fb =>
        w.st.ops fb = .eth ∧ (w.area k fb).dev = f.dev).getLast? := by
      unfold frameBlock World.area
      rw [if_neg (by simp [hloop, hvalid, hyes]), hst]
    rw [← hblock] at h
    have hfreed := hpre.snoc hroot
    have hdrop : Gives e (e.withWorld (kfreeSkb w skb)) f.skb.id.root
        (pre ++ [(skb.id, .freed)]) := by
      refine gives_freed hbpf hidle hst ?_ hfreed
      show w.ledger ++ _ = _
      rw [hw, List.append_assoc]
    cases hfb : frameBlock k e.world.st f with
    | none =>
      rw [hfb] at h
      obtain ⟨rfl, rfl⟩ := Prod.mk.inj (Option.some.inj h)
      exact ⟨_, hdrop, .inl ⟨rfl, hfreed.count_queued⟩⟩
    | some fb =>
      rw [hfb] at h
      dsimp only at h
      split_ifs at h with hport
      · obtain ⟨rfl, rfl⟩ := Prod.mk.inj (Option.some.inj h)
        have harea : (e.world.st.privateData fb k.cpu).port .ingress = idpUnknown := hst ▸ hport
        refine ⟨_, hdrop, .inr ⟨rfl, fb, fun _ => 0, rfl, ?_, hfreed.count_queued⟩⟩
        exact ⟨fun _ _ => rfl, fun _ _ _ _ => Nat.zero_le _, fun _ hne => absurd harea hne⟩
      · obtain ⟨⟨ret, e1⟩, hsend, hres⟩ := Option.map_eq_some_iff.1 h
        obtain ⟨rfl, rfl⟩ := Prod.mk.inj hres
        have hbpf' : NoBpf (e.withWorld w).world.st := hst ▸ hbpf
        obtain ⟨given, hg, hreach⟩ :=
          sendFrom_given (e := e.withWorld w) hbpf' ⟨hidle.active, hidle.backlog⟩ hown hsend
        have hstate : (e.withWorld w).world.st = e.world.st := hst
        rw [hstate] at hreach
        rw [hroot] at hg
        refine ⟨_, hg.after hw hpre, .inr ⟨rfl, fb, _, rfl, hreach, fun sock => ?_⟩⟩
        rw [List.map_append, List.count_append, hpre.count_queued, Nat.zero_add]

end Frames

/-! ## Events at the sockets and at the boxes -/

section Events

variable {t t' : Sockets} {k : Kernel} {devs : SendDevs} {fb : Addr} {data : List UInt8}

theorem refusal_ne_sent {o : SockOpts} {c : SendCall} {res : SendRes}
    (h : c.refusal devs o = some res) (len : ℕ) : res ≠ .sent len := by
  rintro rfl
  unfold SendCall.refusal at h
  repeat' split at h
  all_goals cases h

theorem Mail.post_zero (m : Mail) {n : ℕ → ℕ} (h : ∀ sock, n sock = 0) (data : List UInt8) :
    m.post n data = m := by
  funext sock
  unfold Mail.post
  rw [h sock, List.replicate_zero, List.append_nil]

/-- **Step.**  A packet that is sent from a block is posted. -/
theorem step_sendFrom (h : t.Settled) {dir : PathType} {n : ℕ} {ret : ℤ} {e : Engine World}
    (hsend : sendFrom k n t.engine fb (t.packet data 1) dir = some (ret, e)) :
    (t.delivered data e).Settled ∧
      Mail.Posts k t.st fb dir data t.mail (t.delivered data e).mail := by
  obtain ⟨given, hg, hreach⟩ := sendFrom_given h.noBpf h.idle rfl hsend
  have hg' : Gives t.engine e t.sent given := hg
  refine ⟨Sockets.settled_delivered h hg', ?_⟩
  rw [Sockets.mail_delivered h hg']
  exact .intro hreach

theorem step_send (h : t.Settled) {n : ℕ} {c : SendCall} {res : SendRes}
    (hsend : t.lanaRawSendmsg k devs n fb c = some (res, t')) :
    t'.Settled ∧ Mail.Step t.mail (.send k devs t.st fb c res) t'.mail := by
  unfold Sockets.lanaRawSendmsg at hsend
  cases href : c.refusal devs (t.opts fb) with
  | some res' =>
    rw [href] at hsend
    obtain ⟨rfl, rfl⟩ := Prod.mk.inj (Option.some.inj hsend)
    exact ⟨h, .refused (refusal_ne_sent href)⟩
  | none =>
    rw [href] at hsend
    obtain ⟨e, he, hres⟩ := Option.map_eq_some_iff.1 hsend
    obtain ⟨rfl, rfl⟩ := Prod.mk.inj hres
    obtain ⟨⟨ret, e1⟩, hfrom, rfl⟩ := Option.map_eq_some_iff.1 he
    obtain ⟨hs, hp⟩ := step_sendFrom h hfrom
    exact ⟨hs, .send hp⟩

theorem step_frame (h : t.Settled) {n : ℕ} {f : Frame} {res : RxHandlerResult} {e : Engine World}
    (hf : f.skb = t.packet data f.skb.users)
    (hframe : fbEthHandleFrame k n t.engine f = some (res, e)) :
    (t.delivered data e).Settled ∧
      Mail.Step t.mail (.frame k t.st f data res) (t.delivered data e).mail := by
  obtain ⟨given, hg, hcase⟩ := fbEthHandleFrame_gives h.noBpf h.idle hframe
  have hroot : f.skb.id.root = t.sent := by rw [hf]; rfl
  rw [hroot] at hg
  refine ⟨Sockets.settled_delivered h hg, ?_⟩
  rw [Sockets.mail_delivered h hg]
  rcases hcase with ⟨hblock, hzero⟩ | ⟨rfl, fb, m, hblock, hreach, hcount⟩
  · rw [Mail.post_zero t.mail hzero]
    exact .dropped hblock
  · refine .frame hblock ?_
    rw [funext hcount]
    exact .intro hreach

theorem step_frameVirt (h : t.Settled) {n : ℕ} {e : Engine World}
    (hframe : fbEthvlinkHandleFrameVirt k n t.engine fb (t.packet data 1) = some e) :
    (t.delivered data e).Settled ∧
      Mail.Step t.mail (.frameVirt k t.st fb data) (t.delivered data e).mail := by
  unfold fbEthvlinkHandleFrameVirt at hframe
  split_ifs at hframe with hport
  · obtain rfl := Option.some.inj hframe
    have hpre : FreedOnly t.sent [((t.packet data 1).id, .freed)] := by
      intro x hx
      rw [List.mem_singleton.1 hx]
      exact ⟨rfl, rfl⟩
    have hg : Gives t.engine (t.engine.withWorld (kfreeSkb t.engine.world (t.packet data 1))) t.sent
        [((t.packet data 1).id, .freed)] := gives_freed h.noBpf h.idle rfl rfl hpre
    refine ⟨Sockets.settled_delivered h hg, .frameVirt ?_⟩
    rw [Sockets.mail_delivered h hg, funext hpre.count_queued]
    exact .intro (n := fun _ => 0)
      ⟨fun _ _ => rfl, fun _ _ _ _ => Nat.zero_le _, fun _ hne => absurd hport hne⟩
  · obtain ⟨⟨ret, e1⟩, hfrom, rfl⟩ := Option.map_eq_some_iff.1 hframe
    obtain ⟨hs, hp⟩ := step_sendFrom h hfrom
    exact ⟨hs, .frameVirt hp⟩

/-- The head of a receive queue is answered as the head of a box. -/
theorem recvmsg_eq (content : ℕ → List UInt8) (queue : List PktId) (c : RecvCall) :
    (lanaProtoRecvmsg content queue c).1 = answerFrom (queue.map fun id => content id.root) c ∧
      (lanaProtoRecvmsg content queue c).2 = if c.peek then queue else queue.tail := by
  cases queue with
  | nil =>
    refine ⟨rfl, ?_⟩
    rw [List.tail_nil, ite_self]
    rfl
  | cons id rest =>
    have hmin : (if c.len < (content id.root).length then c.len else (content id.root).length) =
        min c.len (content id.root).length := by
      split_ifs with hlt
      · exact (min_eq_left hlt.le).symm
      · exact (min_eq_right (not_lt.1 hlt)).symm
    have htake : (content id.root).take (min c.len (content id.root).length) =
        (content id.root).take c.len := by
      rw [← List.take_take, List.take_length]
    unfold lanaProtoRecvmsg answerFrom
    dsimp only [List.map_cons]
    rw [hmin, htake]
    cases c.writable <;> exact ⟨rfl, rfl⟩

theorem step_recv (h : t.Settled) (c : RecvCall) :
    let r := lanaProtoRecvmsg t.content (t.queue c.sock) c
    (t.setQueue c.sock r.2).Settled ∧
      Mail.Step t.mail (.recv c r.1) (t.setQueue c.sock r.2).mail := by
  intro r
  obtain ⟨hans, hrest⟩ := recvmsg_eq t.content (t.queue c.sock) c
  have hsub : r.2.Sublist (t.queue c.sock) := by
    rw [hrest]
    split_ifs
    · exact .refl _
    · exact List.tail_sublist _
  refine ⟨Sockets.settled_setQueue h hsub, ?_⟩
  rw [Sockets.mail_setQueue, hrest, show r.1 = answerFrom (t.mail c.sock) c from hans]
  cases hpeek : c.peek with
  | true =>
    have hsame : Function.update t.mail c.sock
        ((t.queue c.sock).map fun id => t.content id.root) = t.mail :=
      Function.update_eq_self c.sock t.mail
    rw [if_pos rfl, hsame]
    exact .peek hpeek
  | false =>
    rw [if_neg Bool.false_ne_true, List.map_tail]
    exact .recv hpeek

theorem step_poll (t : Sockets) (sock : ℕ) :
    Mail.Step t.mail (.poll sock (lanaRawPoll (t.queue sock))) t.mail := by
  have hready : lanaRawPoll (t.queue sock) = decide (t.mail sock ≠ []) := by
    unfold lanaRawPoll Sockets.mail
    cases t.queue sock <;> rfl
  rw [hready]
  exact .poll _ _

theorem step_cmd (h : t.Settled) {c : Cmd} (hc : c.Unfiltered) :
    (t.command c).Settled ∧ Mail.Step t.mail (.cmd c) (t.command c).mail := by
  have hset : (t.controlled c).Settled :=
    ⟨noBpf_exec h.noBpf hc, ⟨h.idle.active, h.idle.backlog⟩, h.fresh⟩
  by_cases hopen : ∃ name sock al, c = .openSock name sock al
  · obtain ⟨name, sock, al, rfl⟩ := hopen
    refine ⟨Sockets.settled_setQueue hset (List.nil_sublist _), ?_⟩
    have hmail := Sockets.mail_setQueue (t.controlled (.openSock name sock al)) sock []
    exact hmail ▸ .openSock t.mail name sock al
  · have hcmd : t.command c = t.controlled c := by
      cases c with
      | openSock name sock al => exact absurd ⟨name, sock, al, rfl⟩ hopen
      | _ => rfl
    rw [hcmd]
    exact ⟨hset, .cmd fun name sock al heq => hopen ⟨name, sock, al, heq⟩⟩

/-- **Step.**  Whatever happens at the sockets can happen at the boxes. -/
theorem step_refines {ev : SockEvent} (h : t.Settled) (hev : ev.Unfiltered) (hs : t.Step ev t') :
    t'.Settled ∧ Mail.Step t.mail ev t'.mail := by
  cases hs with
  | cmd c => exact step_cmd h hev
  | bind devs fb addr => exact ⟨⟨h.noBpf, h.idle, h.fresh⟩, .bind _ _ _ _ _⟩
  | send hsend => exact step_send h hsend
  | frame hf hframe => exact step_frame h hf hframe
  | frameVirt hframe => exact step_frameVirt h hframe
  | recv c => exact step_recv h c
  | poll sock => exact ⟨h, step_poll t sock⟩

/-- A send from a port from which no cycle can be reached returns. -/
theorem send_returns (h : t.Settled) (c : SendCall)
    (hacyclic : ∀ i, ReflTransGen (Edge t.st k.cpu .egress)
      ((t.st.privateData fb k.cpu).port .egress) i → ¬TransGen (Edge t.st k.cpu .egress) i i) :
    ∃ res t', t.Step (.send k devs t.st fb c res) t' := by
  cases href : c.refusal devs (t.opts fb) with
  | some res =>
    refine ⟨res, t, .send (n := 0) ?_⟩
    unfold Sockets.lanaRawSendmsg
    rw [href]
  | none =>
    have hends : ∃ n r, sendFrom k n t.engine fb (t.packet c.data 1) .egress = some r := by
      refine (processPacket_ends_iff h.noBpf.filtersKept h.idle.active).2 fun p hp => ?_
      rw [h.idle.backlog] at hp
      obtain rfl := List.mem_singleton.1 hp
      exact ends_of_acc (acc_iff_acyclic.2 hacyclic) rfl rfl
    obtain ⟨n, ⟨ret, e⟩, hsend⟩ := hends
    refine ⟨.sent c.data.length, t.delivered c.data e, .send (n := n) ?_⟩
    unfold Sockets.lanaRawSendmsg lanaProtoSendmsg
    rw [href, hsend]
    rfl

end Events

/-- **Sockets as boxes.**  Over dummy, counter, tee, eth, ethvlink and PF_LANA blocks: whatever
commands, sends, frames and receives follow one another, what the processes are answered is what the
boxes answer, and the receive queues hold what is in the boxes; the box of a new socket is empty.  A
send from a port from which no cycle can be reached returns. -/
theorem sockets_refine_mail (online : OnlineCpus) (cmds : List Cmd) (hc : ∀ c ∈ cmds, c.Unfiltered)
    (evs : List SockEvent) (hevs : ∀ ev ∈ evs, ev.Unfiltered) (t : Sockets)
    (ht : Steps Sockets.Step (.start (run (State.init online) cmds)) evs t) :
    Steps Mail.Step (fun _ => []) evs t.mail ∧
      ∀ (k : Kernel) (devs : SendDevs) (fb : Addr) (c : SendCall),
        (∀ i, ReflTransGen (Edge t.st k.cpu .egress) ((t.st.privateData fb k.cpu).port .egress) i →
          ¬TransGen (Edge t.st k.cpu .egress) i i) →
        ∃ res t', t.Step (.send k devs t.st fb c res) t' := by
  have hstart : (Sockets.start (run (State.init online) cmds)).Settled :=
    ⟨noBpf_run (noBpf_init online) hc, ⟨rfl, rfl⟩, fun _ _ h => absurd h List.not_mem_nil⟩
  obtain ⟨hsettled, hmail⟩ :=
    ht.refine (f := Sockets.mail) (fun _ _ _ h hev hs => step_refines h hev hs) hevs hstart
  exact ⟨hmail, fun _ _ _ c hacyclic => send_returns hsettled c hacyclic⟩

/-- A socket bound to another one. -/
def pairRun : List Cmd :=
  [.openSock nameA 7 .ok, .openSock nameB 8 .ok, .bind nameA nameB .ok]

/-- Two bytes to any address. -/
def twoBytes : SendCall := ⟨some ⟨16, 27, 0⟩, [104, 105], none, true⟩

/-- A device that is up. -/
def oneDev : SendDevs := ⟨fun _ => none, some ⟨true, 1500⟩⟩

/-- A receiver at the second socket with room for one byte. -/
def oneByteRecv : RecvCall := ⟨8, 1, false, false, .sock 11, true⟩

/-- The message waits at the second socket, and is received without its second byte. -/
theorem sockets_refine_mail_pair : ∃ t,
    Steps Mail.Step (fun _ => [])
      [.send roomy oneDev (run (State.init oneCpu) pairRun) 0 twoBytes (.sent 2), .poll 8 true,
        .recv oneByteRecv ⟨.ok 1, [104], true⟩, .poll 8 false] t := by
  have hc : ∀ c ∈ pairRun, c.Unfiltered := by
    simp only [pairRun, List.forall_mem_cons, Cmd.Unfiltered, List.not_mem_nil]
    exact ⟨trivial, trivial, trivial, fun _ h => absurd h id⟩
  have hsome : ((Sockets.start (run (State.init oneCpu) pairRun)).lanaRawSendmsg roomy oneDev 9 0
      twoBytes).isSome := by decide
  obtain ⟨⟨res, t⟩, hsend⟩ := Option.isSome_iff_exists.1 hsome
  obtain rfl : SendRes.sent 2 = res := congrArg Prod.fst (Option.some.inj hsend)
  have hqueue : [⟨0, []⟩] = t.queue 8 := congrArg (fun r => r.2.queue 8) (Option.some.inj hsend)
  have hcontent : [104, 105] = t.content 0 :=
    congrArg (fun r => r.2.content 0) (Option.some.inj hsend)
  have hpoll := Sockets.Step.poll t 8
  have hrecv := Sockets.Step.recv t oneByteRecv
  rw [← hqueue] at hpoll
  have hans : lanaProtoRecvmsg t.content (t.queue oneByteRecv.sock) oneByteRecv =
      (⟨.ok 1, [104], true⟩, []) := by
    show lanaProtoRecvmsg t.content (t.queue 8) oneByteRecv = _
    rw [← hqueue]
    unfold lanaProtoRecvmsg
    dsimp only
    rw [← hcontent]
    rfl
  rw [hans] at hrecv
  refine ⟨_, (sockets_refine_mail oneCpu pairRun hc _ (fun ev hev => ?_) _
    (.cons (.send hsend) (.cons hpoll (.cons hrecv (.cons (.poll _ 8) (.nil _)))))).1⟩
  simp only [List.mem_cons, List.not_mem_nil, or_false] at hev
  rcases hev with rfl | rfl | rfl | rfl <;> trivial

end Lana
