import Lana.Engine.Discipline
import Lana.Library.Interleave
import Mathlib.Algebra.BigOperators.Group.Finset.Piecewise

/-!
# The timer of an engine

`engine_timer_handler` takes a packet off the backlog of one CPU, `y`, and may run on another one,
`x`, while `y` processes packets of its own.  Reads of the `active` flag and of the queue, and the
enqueue and dequeue of a packet, are single steps; `process_packet` is a stack of calls, since a
`netfb_rx` may call it again.  Without the timer the steps are those of the engine
(`own_processPacket`).

No packet is lost or started twice in any interleaving.  The `BUG_ON` of the handler is out of reach
as long as `y` does not take the last packet off its queue between the last test of the handler and
its dequeue (`timer_handler_safe`).
-/

namespace Lana

open Interleave

/-! ## The engines of all CPUs -/

/-- `struct engine_disc` of one CPU. -/
structure EngineDisc where
  active : Bool
  backlog : List Skb

/-- Who takes a packet up. -/
inductive Starter where
  | timer
  | own
  deriving DecidableEq, Repr

/-- The engines, and a record of the packets taken up, which is not part of the source. -/
structure Discs where
  disc : Cpu → EngineDisc
  started : List (Starter × PktId)

namespace Discs

def setActive (s : Discs) (cpu : Cpu) (b : Bool) : Discs :=
  { s with disc := Function.update s.disc cpu { s.disc cpu with active := b } }

def setBacklog (s : Discs) (cpu : Cpu) (l : List Skb) : Discs :=
  { s with disc := Function.update s.disc cpu { s.disc cpu with backlog := l } }

/-- `engine_backlog_tail` on a CPU. -/
def backlogTail (s : Discs) (cpu : Cpu) (skb : Skb) (dir : PathType) : Discs :=
  s.setBacklog cpu ((s.disc cpu).backlog ++ [writePathToSkb skb dir])

def start (s : Discs) (who : Starter) (skb : Skb) : Discs :=
  { s with started := s.started ++ [(who, skb.id)] }

end Discs

/-! ## The steps of `process_packet` -/

/-- Where a call of `process_packet` stands. -/
inductive PpFrame where
  | test (skb : Skb) (dir : PathType)
  | tail (skb : Skb) (dir : PathType)
  | pkt (skb : Skb) (dir : PathType)
  | walk
  | reduce
  | inactive
  deriving DecidableEq

/-- What happens next where it is not settled by the engine: a packet goes on its way to the last
block, or `process_packet` or `engine_backlog_tail` is called, by a `netfb_rx` or from outside. -/
inductive Move where
  | go
  | call (skb : Skb) (dir : PathType)
  | tail (skb : Skb) (dir : PathType)
  deriving DecidableEq

/-- One step on a CPU with the given calls of `process_packet` in progress, the innermost first. -/
def ppStep (cpu : Cpu) (who : Starter) (m : Move) (s : Discs) : List PpFrame → Discs × List PpFrame
  | .test skb dir :: calls =>
    (s, (if (s.disc cpu).active then .tail skb dir else .pkt skb dir) :: calls)
  | .tail skb dir :: calls => (s.backlogTail cpu skb dir, calls)
  | .pkt skb _ :: calls => ((s.setActive cpu true).start who skb, .walk :: calls)
  | .walk :: calls =>
    match m with
    | .go => (s, .reduce :: calls)
    | .call skb dir => (s, .test skb dir :: .walk :: calls)
    | .tail skb dir => (s.backlogTail cpu skb dir, .walk :: calls)
  | .reduce :: calls =>
    match (s.disc cpu).backlog with
    | [] => (s, .inactive :: calls)
    | skb :: rest => (s.setBacklog cpu rest, .pkt skb (readPathFromSkb skb) :: calls)
  | .inactive :: calls => (s.setActive cpu false, calls)
  | [] =>
    match m with
    | .go => (s, [])
    | .call skb dir => (s, [.test skb dir])
    | .tail skb dir => (s.backlogTail cpu skb dir, [])

/-! ## The steps of `engine_timer_handler` -/

/-- Where the handler stands. -/
inductive TimerPc where
  | active
  | empty
  | cpu
  | len
  | dequeue
  | process (calls : List PpFrame)
  | bug
  | out
  deriving DecidableEq

/-- One step of the handler for the engine of `y`, on the CPU `x`. -/
def TimerPc.step (x y : Cpu) (m : Move) (s : Discs) : TimerPc → Discs × TimerPc
  | .active => (s, if (s.disc y).active then .out else .empty)
  | .empty => (s, if (s.disc y).backlog = [] then .out else .cpu)
  | .cpu => (s, if y ≠ x then .len else .dequeue)
  | .len => (s, if (s.disc y).backlog.length ≤ 150 then .out else .dequeue)
  | .dequeue =>
    match (s.disc y).backlog with
    | [] => (s, .bug)
    | skb :: rest => (s.setBacklog y rest, .process [.test skb (readPathFromSkb skb)])
  | .process [] => (s, .out)
  | .process calls => ((ppStep x .timer m s calls).1, .process (ppStep x .timer m s calls).2)
  | .bug => (s, .bug)
  | .out => (s, .out)

/-- One step of the handler or of the CPU `y` itself. -/
def timerStep (x y : Cpu) (c : Config Discs TimerPc (List PpFrame)) (a : Thread × Move) :
    Config Discs TimerPc (List PpFrame) :=
  step (TimerPc.step x y a.2) (ppStep y .own a.2) c a.1

/-! ## Without the timer -/

section Alone

variable {σ : Type*} {B : Backend σ} {pp : Engine σ → Skb → PathType → Option (ℤ × Engine σ)}

/-- The engine of `y` in either model; `base` has been taken up before. -/
structure Tracks (y : Cpu) (base : List (Starter × PktId)) (s : Discs) (e : Engine σ) : Prop where
  disc : s.disc y = ⟨e.active, e.backlog⟩
  started : s.started = base ++ (starts e.trace).map fun p => (.own, p.1.id)

/-- Some moves of `y` lead from one state to another. -/
def OwnReaches (y : Cpu) : Discs × List PpFrame → Discs × List PpFrame → Prop :=
  Relation.ReflTransGen fun a b => ∃ m, ppStep y .own m a.1 a.2 = b

/-- What the engine does from `e` to `e'`, the steps of `y` can do. -/
def Carries (y : Cpu) (base : List (Starter × PktId)) (calls calls' : List PpFrame)
    (e e' : Engine σ) : Prop :=
  ∀ s, Tracks y base s e → ∃ s', OwnReaches y (s, calls) (s', calls') ∧ Tracks y base s' e'

variable {y : Cpu} {base : List (Starter × PktId)} {calls calls' calls'' : List PpFrame}
  {e e' e'' : Engine σ}

theorem Carries.trans (h : Carries y base calls calls' e e')
    (h' : Carries y base calls' calls'' e' e'') : Carries y base calls calls'' e e'' := by
  intro s hs
  obtain ⟨t, hreach, ht⟩ := h s hs
  obtain ⟨u, hreach', hu⟩ := h' t ht
  exact ⟨u, Relation.ReflTransGen.trans hreach hreach', hu⟩

theorem Carries.single (m : Move) (h : ∀ s, Tracks y base s e →
    ∃ s', ppStep y .own m s calls = (s', calls') ∧ Tracks y base s' e') :
    Carries y base calls calls' e e' := by
  intro s hs
  obtain ⟨s', hstep, hs'⟩ := h s hs
  exact ⟨s', Relation.ReflTransGen.single ⟨m, hstep⟩, hs'⟩

/-- What the other model does not see. -/
theorem Carries.silent (hactive : e'.active = e.active) (hbacklog : e'.backlog = e.backlog)
    (hstarts : starts e'.trace = starts e.trace) : Carries y base calls calls e e' := by
  intro s hs
  exact ⟨s, Relation.ReflTransGen.refl, by rw [hactive, hbacklog]; exact hs.disc,
    by rw [hstarts]; exact hs.started⟩

theorem Tracks.backlogTail {s : Discs} (h : Tracks y base s e) (skb : Skb) (dir : PathType) :
    Tracks y base (s.backlogTail y skb dir) (engineBacklogTail e skb dir) := by
  refine ⟨?_, ?_⟩
  · simp [Discs.backlogTail, Discs.setBacklog, h.disc, engineBacklogTail, Engine.note]
  · simp [Discs.backlogTail, Discs.setBacklog, h.started, engineBacklogTail, Engine.note, starts]

theorem runRx_carries (hpp : ∀ e skb dir ret e', pp e skb dir = some (ret, e') →
      ∀ calls, Carries y base (.test skb dir :: calls) calls e e') (rx : Rx σ) :
    ∀ {e e' : Engine σ} {out : Skb × PathType × ℤ}, runRx pp rx e = some (out, e') →
      ∀ calls, Carries y base (.walk :: calls) (.walk :: calls) e e' := by
  induction rx with
  | ret w skb dir code =>
    intro e e' out h calls
    obtain rfl : e.withWorld w = e' := congrArg Prod.snd (Option.some.inj h)
    exact .silent rfl rfl rfl
  | processPacket w skb dir k ih =>
    intro e e' out h calls
    unfold runRx at h
    rcases hcall : pp (e.withWorld w) skb dir with _ | ⟨ret, e1⟩
    · rw [hcall] at h
      cases h
    · rw [hcall] at h
      have hpush : Carries y base (.walk :: calls) (.test skb dir :: .walk :: calls) e
          (e.withWorld w) :=
        .single (.call skb dir) fun s hs => ⟨s, rfl, hs.disc, hs.started⟩
      exact (hpush.trans (hpp _ _ _ _ _ hcall _)).trans (ih _ _ h calls)
  | engineBacklogTail w skb dir k ih =>
    intro e e' out h calls
    unfold runRx at h
    have htail : Carries y base (.walk :: calls) (.walk :: calls) e
        (engineBacklogTail (e.withWorld w) skb dir) :=
      .single (.tail skb dir) fun s hs => by
        have hw : Tracks y base s (e.withWorld w) := ⟨hs.disc, hs.started⟩
        exact ⟨_, rfl, hw.backlogTail skb dir⟩
    exact htail.trans (ih _ h calls)

theorem hopLoop_carries (hpp : ∀ e skb dir ret e', pp e skb dir = some (ret, e') →
      ∀ calls, Carries y base (.test skb dir :: calls) calls e e') (n : ℕ) :
    ∀ {e e' : Engine σ} {skb : Skb} {dir : PathType} {ret ret' : ℤ},
      hopLoop B pp n e skb dir ret = some (ret', e') →
      ∀ calls, Carries y base (.walk :: calls) (.walk :: calls) e e' := by
  induction n with
  | zero => exact fun h => by cases h
  | succ n ih =>
    intro e e' skb dir ret ret' h calls
    unfold hopLoop at h
    split_ifs at h with hnext
    · obtain rfl : e = e' := congrArg Prod.snd (Option.some.inj h)
      exact .silent rfl rfl rfl
    · rcases hsearch : B.searchFblock e.world (readNextIdpFromSkb skb) with ⟨_ | fb, w⟩
      · rw [hsearch] at h
        obtain rfl := congrArg Prod.snd (Option.some.inj h)
        exact .silent rfl rfl rfl
      · rw [hsearch] at h
        dsimp only at h
        rcases hrx : runRx pp (B.netfbRx w fb skb dir) ((e.withWorld w).note (.enter fb)) with
          _ | ⟨⟨skb1, dir1, code⟩, e1⟩
        · rw [hrx] at h
          cases h
        · rw [hrx] at h
          dsimp only at h
          have henter : Carries y base (.walk :: calls) (.walk :: calls) e
              ((e.withWorld w).note (.enter fb)) :=
            .silent rfl rfl (by simp [Engine.note, Engine.withWorld, starts])
          have hleave : Carries y base (.walk :: calls) (.walk :: calls) e1
              (leaveFblock B e1 fb) :=
            .silent rfl rfl (by simp [leaveFblock, Engine.note, starts])
          have hvisit := (henter.trans (runRx_carries hpp _ hrx calls)).trans hleave
          split_ifs at h with hdropped
          · obtain rfl := congrArg Prod.snd (Option.some.inj h)
            exact hvisit
          · exact hvisit.trans (ih h calls)

theorem pktLoop_carries (hpp : ∀ e skb dir ret e', pp e skb dir = some (ret, e') →
      ∀ calls, Carries y base (.test skb dir :: calls) calls e e') (n : ℕ) :
    ∀ {e e' : Engine σ} {skb : Skb} {dir : PathType} {ret : ℤ},
      pktLoop B pp n e skb dir = some (ret, e') →
      ∀ calls, Carries y base (.pkt skb dir :: calls) calls e e' := by
  induction n with
  | zero => exact fun h => by cases h
  | succ n ih =>
    intro e e' skb dir ret h calls
    unfold pktLoop at h
    rcases hhop : hopLoop B pp n (takeUp e skb dir) skb dir ppeError with _ | ⟨ret1, e1⟩
    · rw [hhop] at h
      cases h
    rw [hhop] at h
    dsimp only at h
    have htake : Carries y base (.pkt skb dir :: calls) (.walk :: calls) e (takeUp e skb dir) :=
      .single .go fun s hs => by
        refine ⟨_, rfl, ?_, ?_⟩
        · simp [Discs.setActive, Discs.start, hs.disc, takeUp, Engine.note]
        · simp [Discs.setActive, Discs.start, hs.started, takeUp, Engine.note, starts]
    have hgo : Carries y base (.walk :: calls) (.reduce :: calls) e1 e1 :=
      .single .go fun s hs => ⟨s, rfl, hs⟩
    have hpacket := (htake.trans (hopLoop_carries hpp n hhop calls)).trans hgo
    unfold engineBacklogTestReduce at h
    rcases hb : e1.backlog with _ | ⟨skb2, rest⟩
    · rw [hb] at h
      obtain rfl := congrArg Prod.snd (Option.some.inj h)
      have hempty : Carries y base (.reduce :: calls) (.inactive :: calls) e1 e1 :=
        .single .go fun s hs => ⟨s, by simp only [ppStep, hs.disc, hb], hs⟩
      have hdone : Carries y base (.inactive :: calls) calls e1 { e1 with active := false } :=
        .single .go fun s hs => by
          refine ⟨_, rfl, ?_, hs.started⟩
          simp [Discs.setActive, hs.disc]
      exact (hpacket.trans hempty).trans hdone
    · rw [hb] at h
      have hnext : Carries y base (.reduce :: calls) (.pkt skb2 (readPathFromSkb skb2) :: calls) e1
          { e1 with backlog := rest } :=
        .single .go fun s hs => by
          refine ⟨s.setBacklog y rest, by simp only [ppStep, hs.disc, hb], ?_, hs.started⟩
          simp [Discs.setBacklog, hs.disc]
      exact (hpacket.trans hnext).trans (ih h calls)

/-- The steps of `y` can do what its engine does. -/
theorem own_processPacket (n : ℕ) : ∀ {e e' : Engine σ} {skb : Skb} {dir : PathType} {ret : ℤ},
    processPacket B n e skb dir = some (ret, e') →
      ∀ calls, Carries y base (.test skb dir :: calls) calls e e' := by
  induction n with
  | zero => exact fun h => by cases h
  | succ n ih =>
    intro e e' skb dir ret h calls
    unfold processPacket at h
    split_ifs at h with hactive
    · obtain rfl := congrArg Prod.snd (Option.some.inj h)
      have htest : Carries y base (.test skb dir :: calls) (.tail skb dir :: calls) e e :=
        .single .go fun s hs => ⟨s, by simp [ppStep, hs.disc, hactive], hs⟩
      have htail : Carries y base (.tail skb dir :: calls) calls e (engineBacklogTail e skb dir) :=
        .single .go fun s hs => ⟨_, rfl, hs.backlogTail skb dir⟩
      exact htest.trans htail
    · have htest : Carries y base (.test skb dir :: calls) (.pkt skb dir :: calls) e e :=
        .single .go fun s hs => ⟨s, by simp [ppStep, hs.disc, hactive], hs⟩
      exact htest.trans (pktLoop_carries (fun _ _ _ _ _ hrec => ih hrec) n h calls)

end Alone

/-! ## No packet is lost or started twice -/

/-- The packet a move hands in. -/
def Move.packet : Move → Option PktId
  | .go => none
  | .call skb _ | .tail skb _ => some skb.id

/-- 1 for a call that has the packet `i` in its hands and has not taken it up. -/
def PpFrame.holds (i : PktId) : PpFrame → ℕ
  | .test skb _ | .tail skb _ | .pkt skb _ => if skb.id = i then 1 else 0
  | _ => 0

def callsHold (i : PktId) (calls : List PpFrame) : ℕ := (calls.map (PpFrame.holds i)).sum

def TimerPc.holds (i : PktId) : TimerPc → ℕ
  | .process calls => callsHold i calls
  | _ => 0

namespace Discs

/-- How often the packet `i` is on the backlog of a CPU. -/
def queued (s : Discs) (i : PktId) (cpu : Cpu) : ℕ :=
  (s.disc cpu).backlog.countP fun skb => skb.id = i

/-- How often the packet `i` has been taken up by the timer or by the CPU itself. -/
def startedBy (s : Discs) (who : Starter) (i : PktId) : ℕ := s.started.count (who, i)

/-- How often the packet `i` is on one of the backlogs or has been taken up. -/
def load (s : Discs) (S : Finset Cpu) (i : PktId) : ℕ :=
  ∑ cpu ∈ S, s.queued i cpu + (s.startedBy .timer i + s.startedBy .own i)

variable (s : Discs) {S : Finset Cpu} {cpu : Cpu} {i : PktId}

theorem load_setBacklog (h : cpu ∈ S) (l : List Skb) :
    (s.setBacklog cpu l).load S i + s.queued i cpu =
      s.load S i + l.countP fun skb => skb.id = i := by
  have hqueued : (s.setBacklog cpu l).queued i =
      Function.update (s.queued i) cpu (l.countP fun skb => skb.id = i) := by
    funext c
    unfold queued setBacklog
    by_cases hc : c = cpu
    · subst hc
      simp
    · simp [hc]
  unfold load
  rw [hqueued, Finset.sum_update_of_mem h, ← Finset.add_sum_erase S _ h,
    Finset.sdiff_singleton_eq_erase]
  show _ + (s.startedBy .timer i + s.startedBy .own i) + _ = _
  omega

/-- The head of a backlog is taken off. -/
theorem load_pop (h : cpu ∈ S) {skb : Skb} {rest : List Skb}
    (hb : (s.disc cpu).backlog = skb :: rest) :
    (s.setBacklog cpu rest).load S i + (if skb.id = i then 1 else 0) = s.load S i := by
  have hload := s.load_setBacklog (i := i) h rest
  have hqueued : s.queued i cpu = rest.countP (fun skb => skb.id = i) +
      if skb.id = i then 1 else 0 := by
    unfold queued
    rw [hb, List.countP_cons]
    simp only [decide_eq_true_eq]
  omega

theorem load_setActive (b : Bool) : (s.setActive cpu b).load S i = s.load S i := by
  have hqueued : (s.setActive cpu b).queued i = s.queued i := by
    funext c
    unfold queued setActive
    by_cases hc : c = cpu
    · subst hc
      simp
    · simp [hc]
  unfold load
  rw [hqueued]
  rfl

theorem load_backlogTail (h : cpu ∈ S) (skb : Skb) (dir : PathType) :
    (s.backlogTail cpu skb dir).load S i = s.load S i + if skb.id = i then 1 else 0 := by
  have hload := s.load_setBacklog (i := i) h ((s.disc cpu).backlog ++ [writePathToSkb skb dir])
  rw [List.countP_append, List.countP_singleton] at hload
  have hid : (writePathToSkb skb dir).id = skb.id := rfl
  have hold : (s.disc cpu).backlog.countP (fun skb => skb.id = i) = s.queued i cpu := rfl
  rw [hid, hold] at hload
  unfold backlogTail
  simp only [decide_eq_true_eq] at hload
  omega

theorem load_start (who : Starter) (skb : Skb) :
    (s.start who skb).load S i = s.load S i + if skb.id = i then 1 else 0 := by
  have hqueued : (s.start who skb).queued i = s.queued i := rfl
  unfold load
  rw [hqueued]
  unfold startedBy start
  simp only [List.count_append, List.count_singleton, beq_iff_eq, Prod.mk.injEq]
  cases who <;> simp <;> omega

end Discs

theorem callsHold_cons (i : PktId) (f : PpFrame) (calls : List PpFrame) :
    callsHold i (f :: calls) = f.holds i + callsHold i calls := by
  simp [callsHold]

/-- A step keeps every packet it does not hand in. -/
theorem ppStep_load {S : Finset Cpu} {cpu : Cpu} (h : cpu ∈ S) {i : PktId} {m : Move}
    (hm : m.packet ≠ some i) (who : Starter) (s : Discs) (calls : List PpFrame) :
    (ppStep cpu who m s calls).1.load S i + callsHold i (ppStep cpu who m s calls).2 =
      s.load S i + callsHold i calls := by
  have hmove : ∀ skb : Skb, m.packet = some skb.id → skb.id ≠ i := by
    rintro skb hskb rfl
    exact hm hskb
  rcases calls with _ | ⟨f, calls⟩
  · cases m with
    | go => rfl
    | call skb dir =>
      simp only [ppStep, callsHold_cons, PpFrame.holds, if_neg (hmove skb rfl)]
      omega
    | tail skb dir =>
      simp only [ppStep, Discs.load_backlogTail s h, if_neg (hmove skb rfl), add_zero]
  · rw [callsHold_cons]
    cases f with
    | test skb dir =>
      simp only [ppStep, callsHold_cons]
      split_ifs <;> rfl
    | tail skb dir =>
      simp only [ppStep, Discs.load_backlogTail s h, PpFrame.holds]
      omega
    | pkt skb dir =>
      simp only [ppStep, callsHold_cons, Discs.load_start, Discs.load_setActive, PpFrame.holds]
      omega
    | walk =>
      cases m with
      | go => simp only [ppStep, callsHold_cons, PpFrame.holds]
      | call skb dir =>
        simp only [ppStep, callsHold_cons, PpFrame.holds, if_neg (hmove skb rfl)]
        omega
      | tail skb dir =>
        simp only [ppStep, callsHold_cons, Discs.load_backlogTail s h, if_neg (hmove skb rfl),
          add_zero]
    | reduce =>
      simp only [ppStep]
      rcases hb : (s.disc cpu).backlog with _ | ⟨skb, rest⟩
      · simp only [callsHold_cons, PpFrame.holds]
      · have hload := s.load_pop (i := i) h hb
        simp only [callsHold_cons, PpFrame.holds]
        omega
    | inactive =>
      simp only [ppStep, Discs.load_setActive, PpFrame.holds]
      omega

theorem timerPc_load {S : Finset Cpu} {x y : Cpu} (hx : x ∈ S) (hy : y ∈ S) {i : PktId} {m : Move}
    (hm : m.packet ≠ some i) (s : Discs) (pc : TimerPc) :
    (pc.step x y m s).1.load S i + (pc.step x y m s).2.holds i = s.load S i + pc.holds i := by
  cases pc with
  | active | empty | cpu | len =>
    simp only [TimerPc.step]
    split_ifs <;> rfl
  | dequeue =>
    simp only [TimerPc.step]
    rcases hb : (s.disc y).backlog with _ | ⟨skb, rest⟩
    · rfl
    · have hload := s.load_pop (i := i) hy hb
      simp only [TimerPc.holds, callsHold, List.map_cons, List.map_nil, List.sum_cons,
        List.sum_nil, PpFrame.holds]
      omega
  | process calls =>
    rcases calls with _ | ⟨f, calls⟩
    · rfl
    · exact ppStep_load hx hm .timer s (f :: calls)
  | bug | out => rfl

/-- How often the packet `i` waits: on a backlog, or in the hands of a call. -/
def waiting (x y : Cpu) (i : PktId) (c : Config Discs TimerPc (List PpFrame)) : ℕ :=
  ∑ cpu ∈ {x, y}, c.shared.queued i cpu + (c.first.holds i + callsHold i c.second)

/-- A packet that is not handed in again waits or has been started, in every interleaving as often
as before. -/
theorem timerRun_load (x y : Cpu) (i : PktId) (sched : List (Thread × Move))
    (hi : ∀ a ∈ sched, a.2.packet ≠ some i) (c : Config Discs TimerPc (List PpFrame)) :
    let c' := sched.foldl (timerStep x y) c
    waiting x y i c' + (c'.shared.startedBy .timer i + c'.shared.startedBy .own i) =
      waiting x y i c + (c.shared.startedBy .timer i + c.shared.startedBy .own i) := by
  induction sched generalizing c with
  | nil => rfl
  | cons a sched ih =>
    obtain ⟨turn, m⟩ := a
    have hm : m.packet ≠ some i := hi _ List.mem_cons_self
    refine (ih (fun b hb => hi b (List.mem_cons_of_mem _ hb)) (timerStep x y c (turn, m))).trans ?_
    have hx : x ∈ ({x, y} : Finset Cpu) := by simp
    have hy : y ∈ ({x, y} : Finset Cpu) := by simp
    unfold waiting timerStep
    cases turn with
    | first =>
      have h := timerPc_load hx hy hm c.shared c.first
      unfold Discs.load at h
      simp only [step]
      omega
    | second =>
      have h := ppStep_load hy hm .own c.shared c.second
      unfold Discs.load at h
      simp only [step]
      omega

/-! ## The `BUG_ON` of the handler -/

/-- The handler has made its last test of the queue and not yet dequeued. -/
def TimerPc.committed (x y : Cpu) : TimerPc → Bool
  | .cpu => x = y
  | .dequeue => true
  | _ => false

/-- While the handler is about to dequeue, the CPU does not take the last packet off its queue. -/
def Undrained (x y : Cpu) (c : Config Discs TimerPc (List PpFrame)) (a : Thread × Move) : Prop :=
  a.1 = .second → c.first.committed x y = true → c.second.head? = some .reduce →
    2 ≤ (c.shared.disc y).backlog.length

instance (x y : Cpu) (c : Config Discs TimerPc (List PpFrame)) (a : Thread × Move) :
    Decidable (Undrained x y c a) :=
  inferInstanceAs (Decidable (a.1 = .second → c.first.committed x y = true →
    c.second.head? = some .reduce → 2 ≤ (c.shared.disc y).backlog.length))

/-- What the CPU itself does to its backlog. -/
theorem ppStep_backlog (cpu : Cpu) (who : Starter) (m : Move) (s : Discs) (calls : List PpFrame) :
    (calls.head? = some .reduce ∧
        ((ppStep cpu who m s calls).1.disc cpu).backlog = (s.disc cpu).backlog.tail) ∨
      ∃ l, ((ppStep cpu who m s calls).1.disc cpu).backlog = (s.disc cpu).backlog ++ l := by
  have htail : ∀ skb dir, ((s.backlogTail cpu skb dir).disc cpu).backlog =
      (s.disc cpu).backlog ++ [writePathToSkb skb dir] := by
    intro skb dir
    simp [Discs.backlogTail, Discs.setBacklog]
  have hactive : ∀ b, ((s.setActive cpu b).disc cpu).backlog = (s.disc cpu).backlog := by
    intro b
    simp [Discs.setActive]
  have hsame : ∃ l, (s.disc cpu).backlog = (s.disc cpu).backlog ++ l :=
    ⟨[], (List.append_nil _).symm⟩
  rcases calls with _ | ⟨f, calls⟩
  · cases m with
    | go | call => exact .inr hsame
    | tail skb dir => exact .inr ⟨_, htail skb dir⟩
  · cases f with
    | test skb dir => exact .inr hsame
    | tail skb dir => exact .inr ⟨_, htail skb dir⟩
    | pkt skb dir => exact .inr ⟨[], by rw [List.append_nil]; exact hactive true⟩
    | walk =>
      cases m with
      | go | call => exact .inr hsame
      | tail skb dir => exact .inr ⟨_, htail skb dir⟩
    | reduce =>
      refine .inl ⟨rfl, ?_⟩
      simp only [ppStep]
      rcases hb : (s.disc cpu).backlog with _ | ⟨skb, rest⟩
      · exact hb
      · simp [Discs.setBacklog]
    | inactive => exact .inr ⟨[], by rw [List.append_nil]; exact hactive false⟩

/-- Once its tests are behind it, the handler finds a packet. -/
structure Ready (x y : Cpu) (c : Config Discs TimerPc (List PpFrame)) : Prop where
  nonempty : c.first.committed x y = true → (c.shared.disc y).backlog ≠ []
  safe : c.first ≠ .bug

theorem ready_step {x y : Cpu} {c : Config Discs TimerPc (List PpFrame)} {a : Thread × Move}
    (h : Ready x y c) (hok : Undrained x y c a) : Ready x y (timerStep x y c a) := by
  obtain ⟨turn, m⟩ := a
  obtain ⟨s, pc, calls⟩ := c
  cases turn with
  | second =>
    refine ⟨fun hc => ?_, h.safe⟩
    have hne : (s.disc y).backlog ≠ [] := h.nonempty hc
    show ((ppStep y .own m s calls).1.disc y).backlog ≠ []
    rcases ppStep_backlog y .own m s calls with ⟨hred, heq⟩ | ⟨l, heq⟩
    · have htwo : 2 ≤ (s.disc y).backlog.length := hok rfl hc hred
      rw [heq]
      intro hnil
      have := congrArg List.length hnil
      rw [List.length_tail, List.length_nil] at this
      omega
    · rw [heq]
      exact List.append_ne_nil_of_left_ne_nil hne l
  | first =>
    unfold timerStep
    simp only [step]
    cases pc with
    | active =>
      simp only [TimerPc.step]
      split_ifs <;> exact ⟨nofun, nofun⟩
    | empty =>
      simp only [TimerPc.step]
      split_ifs with hb
      · exact ⟨nofun, nofun⟩
      · exact ⟨fun _ => hb, nofun⟩
    | cpu =>
      simp only [TimerPc.step]
      split_ifs with hxy
      · exact ⟨nofun, nofun⟩
      · refine ⟨fun _ => h.nonempty ?_, nofun⟩
        exact decide_eq_true (not_not.1 hxy).symm
    | len =>
      simp only [TimerPc.step]
      split_ifs with hlen
      · exact ⟨nofun, nofun⟩
      · refine ⟨fun _ hnil => hlen ?_, nofun⟩
        have hnil : (s.disc y).backlog = [] := hnil
        rw [hnil]
        exact Nat.zero_le _
    | dequeue =>
      simp only [TimerPc.step]
      rcases hb : (s.disc y).backlog with _ | ⟨skb, rest⟩
      · exact absurd hb (h.nonempty rfl)
      · exact ⟨nofun, nofun⟩
    | process calls' =>
      rcases calls' with _ | ⟨f, calls'⟩
      · exact ⟨nofun, nofun⟩
      · exact ⟨nofun, nofun⟩
    | bug => exact absurd rfl h.safe
    | out => exact ⟨nofun, nofun⟩

/-- Moves of the CPU itself that take `n` packets off its queue. -/
def drain : ℕ → List (Thread × Move)
  | 0 => []
  | n + 1 => (.second, .go) :: (.second, .go) :: (.second, .go) :: drain n

theorem drain_backlog (x y : Cpu) (pc : TimerPc) (calls : List PpFrame) (q : List Skb) (s : Discs)
    (hq : (s.disc y).backlog = q) :
    ∃ s', (drain q.length).foldl (timerStep x y) ⟨s, pc, .reduce :: calls⟩ =
        ⟨s', pc, .reduce :: calls⟩ ∧ (s'.disc y).backlog = [] := by
  induction q generalizing s with
  | nil => exact ⟨s, rfl, hq⟩
  | cons skb q ih =>
    -- dequeue, take up, and come back from the last block
    let t := ((s.setBacklog y q).setActive y true).start .own skb
    have hround : [(.second, .go), (.second, .go), (.second, .go)].foldl (timerStep x y)
        ⟨s, pc, .reduce :: calls⟩ = ⟨t, pc, .reduce :: calls⟩ := by
      simp only [List.foldl_cons, List.foldl_nil, timerStep, step, ppStep, hq, t]
    have ht : (t.disc y).backlog = q := by
      simp [t, Discs.start, Discs.setActive, Discs.setBacklog]
    obtain ⟨s', hrun, hs'⟩ := ih t ht
    refine ⟨s', ?_, hs'⟩
    rw [← hrun, ← hround]
    rfl

/-- Whenever the handler of another CPU has found more than 150 packets, `y` may drain its queue
before the handler dequeues. -/
theorem drained_bug {x y : Cpu} (hxy : x ≠ y) (disc : Cpu → EngineDisc)
    (hactive : (disc y).active = false) (hlen : 150 < (disc y).backlog.length) (skb : Skb)
    (dir : PathType) :
    let sched := List.replicate 4 (.first, .go) ++ (.second, .call skb dir) ::
      List.replicate 3 (.second, .go) ++ drain (disc y).backlog.length ++ [(.first, .go)]
    (sched.foldl (timerStep x y) ⟨⟨disc, []⟩, .active, []⟩).first = .bug := by
  intro sched
  have hne : (disc y).backlog ≠ [] := List.ne_nil_of_length_pos (by omega)
  have htests : (List.replicate 4 (.first, .go)).foldl (timerStep x y) ⟨⟨disc, []⟩, .active, []⟩ =
      ⟨⟨disc, []⟩, .dequeue, []⟩ := by
    simp [List.replicate, timerStep, step, TimerPc.step, hactive, hne, hxy.symm, hlen]
  let s : Discs := (Discs.setActive ⟨disc, []⟩ y true).start .own skb
  have hcall : ((.second, .call skb dir) :: List.replicate 3 (.second, .go)).foldl (timerStep x y)
      ⟨⟨disc, []⟩, .dequeue, []⟩ = ⟨s, .dequeue, [.reduce]⟩ := by
    simp [List.replicate, timerStep, step, ppStep, hactive, s]
  have hs : (s.disc y).backlog = (disc y).backlog := by
    simp [s, Discs.start, Discs.setActive]
  obtain ⟨s', hrun, hs'⟩ := drain_backlog x y .dequeue [] _ s hs
  simp only [sched, List.foldl_append]
  rw [htests, hcall, hrun]
  simp [timerStep, step, TimerPc.step, hs']

end Lana
