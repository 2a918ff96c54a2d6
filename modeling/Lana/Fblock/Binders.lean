import Lana.Library.Interleave
import Lana.Fblock.Ports

/-!
# Two binders of one port

`FBLOCK_BIND_IDP` by single reads and writes of each CPU's port and the lock operations around
them.  The bpf block tests and writes a port under one lock; the other blocks with two ports take
their lock after the test, around the write alone.  Two events for one direction of a block are
exclusive as long as no port is tested that the other event has found free and is yet to write
(`bind_event_exclusive`), which the lock of the bpf block ensures.
-/

namespace Lana

open Interleave

/-- The areas of one block and the locks in them. -/
structure PercpuAreas where
  priv : Cpu → Priv
  locked : Cpu → Bool

/-- `port[dir] = idp` on one CPU. -/
def PercpuAreas.setPort (a : PercpuAreas) (cpu : Cpu) (dir : PathType) (idp : Idp) : PercpuAreas :=
  { a with
    priv := Function.update a.priv cpu
      { a.priv cpu with port := Function.update (a.priv cpu).port dir idp } }

/-- The lock of one CPU is taken or given up. -/
def PercpuAreas.setLock (a : PercpuAreas) (cpu : Cpu) (b : Bool) : PercpuAreas :=
  { a with locked := Function.update a.locked cpu b }

/-- Where a handler stands in its loop over the CPUs. -/
inductive EventPc where
  | loop (cpus : List Cpu)
  | lock (cpu : Cpu) (cpus : List Cpu)
  | test (cpu : Cpu) (cpus : List Cpu)
  | write (cpu : Cpu) (cpus : List Cpu)
  | unlock (cpu : Cpu) (cpus : List Cpu)
  | fail (cpu : Cpu)
  | done (ret : Notify)
  deriving DecidableEq

/-- One step of `FBLOCK_BIND_IDP`: the test, `write_seqlock`, the write, `write_sequnlock`. -/
def portBindStep (dir : PathType) (idp : Idp) (a : PercpuAreas) : EventPc → PercpuAreas × EventPc
  | .loop [] => (a, .done .ok)
  | .loop (cpu :: cpus) =>
    if (a.priv cpu).port dir = idpUnknown then (a, .lock cpu cpus) else (a, .done .bad)
  | .lock cpu cpus =>
    if a.locked cpu then (a, .lock cpu cpus) else (a.setLock cpu true, .write cpu cpus)
  | .write cpu cpus => (a.setPort cpu dir idp, .unlock cpu cpus)
  | .unlock cpu cpus => (a.setLock cpu false, .loop cpus)
  | pc => (a, pc)

/-- `fb_dummy_event`. -/
def fbDummyBindStep := portBindStep

/-- `fb_counter_event`. -/
def fbCounterBindStep := portBindStep

/-- `fb_eth_event`. -/
def fbEthBindStep := portBindStep

/-- `fb_ethvlink_event`. -/
def fbEthvlinkBindStep := portBindStep

/-- `fb_pflana_event`. -/
def fbPflanaBindStep := portBindStep

/-- `fb_bpf_event`: `spin_lock`, the test, the write, `spin_unlock`. -/
def fbBpfBindStep (dir : PathType) (idp : Idp) (a : PercpuAreas) :
    EventPc → PercpuAreas × EventPc
  | .loop [] => (a, .done .ok)
  | .loop (cpu :: cpus) =>
    if a.locked cpu then (a, .loop (cpu :: cpus)) else (a.setLock cpu true, .test cpu cpus)
  | .test cpu cpus =>
    if (a.priv cpu).port dir = idpUnknown then (a, .write cpu cpus) else (a, .fail cpu)
  | .write cpu cpus => (a.setPort cpu dir idp, .unlock cpu cpus)
  | .unlock cpu cpus => (a.setLock cpu false, .loop cpus)
  | .fail cpu => (a.setLock cpu false, .done .bad)
  | pc => (a, pc)

/-- The steps of the blocks with two ports; the tee has a third. -/
def FbType.bindStep :
    FbType → Option (PathType → Idp → PercpuAreas → EventPc → PercpuAreas × EventPc)
  | .dummy => some fbDummyBindStep
  | .counter => some fbCounterBindStep
  | .bpf => some fbBpfBindStep
  | .eth => some fbEthBindStep
  | .ethvlink => some fbEthvlinkBindStep
  | .pflana => some fbPflanaBindStep
  | .tee => none

variable {t : FbType} {dir : PathType} {idp : Idp}
  {f : PathType → Idp → PercpuAreas → EventPc → PercpuAreas × EventPc}

/-- There are two kinds of handlers. -/
theorem bindStep_cases (hf : t.bindStep = some f) :
    t ≠ .bpf ∧ f = portBindStep ∨ t = .bpf ∧ f = fbBpfBindStep := by
  cases t
  case tee => cases hf
  case bpf => exact .inr ⟨rfl, (Option.some.inj hf).symm⟩
  all_goals exact .inl ⟨by decide, (Option.some.inj hf).symm⟩

/-! ## One event alone -/

theorem setLock_setPort_setLock {a : PercpuAreas} {cpu : Cpu} (h : a.locked cpu = false) :
    ((a.setLock cpu true).setPort cpu dir idp).setLock cpu false = a.setPort cpu dir idp := by
  unfold PercpuAreas.setLock PercpuAreas.setPort
  simp only [Function.update_idem, ← h, Function.update_eq_self]

theorem setLock_setLock {a : PercpuAreas} {cpu : Cpu} (h : a.locked cpu = false) :
    (a.setLock cpu true).setLock cpu false = a := by
  unfold PercpuAreas.setLock
  simp only [Function.update_idem, ← h, Function.update_eq_self]

/-- The steps of the handler are the handler. -/
theorem bindStep_reaches (hf : t.bindStep = some f) (cpus : List Cpu) (a : PercpuAreas)
    (hfree : ∀ c, a.locked c = false) :
    Reaches (f dir idp) (a, .loop cpus)
      (⟨(t.event (.bindIdp dir idp) cpus a.priv).2, a.locked⟩,
        .done (t.event (.bindIdp dir idp) cpus a.priv).1) := by
  have hevent : t.event (.bindIdp dir idp) = forEachOnlineCpu (bindPort dir idp) := by
    cases t <;> first | rfl | cases hf
  rw [hevent]
  induction cpus generalizing a with
  | nil =>
    refine .head ?_ (.refl _)
    rcases bindStep_cases hf with ⟨-, rfl⟩ | ⟨-, rfl⟩ <;> rfl
  | cons cpu cpus ih =>
    have hcpu := hfree cpu
    by_cases hport : (a.priv cpu).port dir = idpUnknown
    · have hloop : forEachOnlineCpu (bindPort dir idp) (cpu :: cpus) a.priv =
          forEachOnlineCpu (bindPort dir idp) cpus (a.setPort cpu dir idp).priv := by
        rw [forEachOnlineCpu, bindPort, if_pos hport]
        rfl
      have hrest := ih (a.setPort cpu dir idp) hfree
      rw [hloop]
      rcases bindStep_cases hf with ⟨-, rfl⟩ | ⟨-, rfl⟩
      · refine .head (b := (a, .lock cpu cpus)) (by simp only [portBindStep, if_pos hport]) ?_
        refine .head (b := (a.setLock cpu true, .write cpu cpus))
          (by simp [portBindStep, hcpu]) (.head rfl (.head rfl ?_))
        simp only [portBindStep, setLock_setPort_setLock hcpu]
        exact hrest
      · refine .head (b := (a.setLock cpu true, .test cpu cpus))
          (by simp [fbBpfBindStep, hcpu]) ?_
        refine .head (b := (a.setLock cpu true, .write cpu cpus))
          (by simp only [fbBpfBindStep]; exact if_pos hport) (.head rfl (.head rfl ?_))
        simp only [fbBpfBindStep, setLock_setPort_setLock hcpu]
        exact hrest
    · have hloop : forEachOnlineCpu (bindPort dir idp) (cpu :: cpus) a.priv = (.bad, a.priv) := by
        rw [forEachOnlineCpu, bindPort, if_neg hport]
      rw [hloop]
      rcases bindStep_cases hf with ⟨-, rfl⟩ | ⟨-, rfl⟩
      · exact .head (by simp only [portBindStep, if_neg hport]) (.refl _)
      · refine .head (b := (a.setLock cpu true, .test cpu cpus))
          (by simp [fbBpfBindStep, hcpu]) ?_
        refine .head (b := (a.setLock cpu true, .fail cpu))
          (by simp only [fbBpfBindStep]; exact if_neg hport) (.head rfl ?_)
        simp only [fbBpfBindStep, setLock_setLock hcpu]
        exact .refl _

/-! ## What a step can do -/

/-- How far an event has come, whichever handler it runs: ports to go, or a port that has been
found free and is yet to be written. -/
inductive BindPos where
  | before (cpus : List Cpu)
  | between (cpu : Cpu) (cpus : List Cpu)
  | ended (ret : Notify)

def EventPc.pos : EventPc → BindPos
  | .loop cpus => .before cpus
  | .test cpu cpus => .before (cpu :: cpus)
  | .lock cpu cpus | .write cpu cpus => .between cpu cpus
  | .unlock _ cpus => .before cpus
  | .fail _ => .ended .bad
  | .done ret => .ended ret

/-- The CPU whose port the next step tests. -/
def EventPc.testing (t : FbType) : EventPc → Option Cpu
  | .loop (cpu :: _) => if t = .bpf then none else some cpu
  | .test cpu _ => some cpu
  | _ => none

/-- The CPU whose port has been found free and is yet to be written. -/
def EventPc.pending : EventPc → Option Cpu
  | .lock cpu _ | .write cpu _ => some cpu
  | _ => none

theorem pending_of_between {pc : EventPc} {cpu : Cpu} {cpus : List Cpu}
    (hpos : pc.pos = .between cpu cpus) : pc.pending = some cpu := by
  cases pc with
  | lock | write =>
    obtain ⟨rfl, rfl⟩ := BindPos.between.inj hpos
    rfl
  | loop | test | unlock | fail | done => cases hpos

/-- The steps of either handler, as far as the ports go. -/
inductive BindMove (dir : PathType) (idp : Idp) (testing : Option Cpu) (priv : Cpu → Priv) :
    BindPos → (Cpu → Priv) → BindPos → Prop
  | stay (pos : BindPos) : BindMove dir idp testing priv pos priv pos
  | finish : BindMove dir idp testing priv (.before []) priv (.ended .ok)
  | refuse {cpu : Cpu} {cpus : List Cpu} :
      BindMove dir idp testing priv (.before (cpu :: cpus)) priv (.ended .bad)
  | pass {cpu : Cpu} {cpus : List Cpu} (ht : testing = some cpu)
      (hfree : (priv cpu).port dir = idpUnknown) :
      BindMove dir idp testing priv (.before (cpu :: cpus)) priv (.between cpu cpus)
  | write {cpu : Cpu} {cpus : List Cpu} :
      BindMove dir idp testing priv (.between cpu cpus)
        (Function.update priv cpu
          { priv cpu with port := Function.update (priv cpu).port dir idp }) (.before cpus)

theorem portBindStep_move (ht : t ≠ .bpf) (a : PercpuAreas) (pc : EventPc) :
    BindMove dir idp (pc.testing t) a.priv pc.pos (portBindStep dir idp a pc).1.priv
      (portBindStep dir idp a pc).2.pos := by
  cases pc with
  | loop cpus =>
    cases cpus with
    | nil => exact .finish
    | cons cpu cpus =>
      simp only [portBindStep]
      by_cases hport : (a.priv cpu).port dir = idpUnknown
      · simp only [if_pos hport]
        exact .pass (if_neg ht) hport
      · simp only [if_neg hport]
        exact .refuse
  | lock cpu cpus =>
    simp only [portBindStep]
    split_ifs <;> exact .stay _
  | write cpu cpus => exact .write
  | test cpu cpus => exact .stay _
  | unlock cpu cpus => exact .stay _
  | fail cpu => exact .stay _
  | done ret => exact .stay _

theorem fbBpfBindStep_move (a : PercpuAreas) (pc : EventPc) :
    BindMove dir idp (pc.testing t) a.priv pc.pos (fbBpfBindStep dir idp a pc).1.priv
      (fbBpfBindStep dir idp a pc).2.pos := by
  cases pc with
  | loop cpus =>
    cases cpus with
    | nil => exact .finish
    | cons cpu cpus =>
      simp only [fbBpfBindStep]
      split_ifs <;> exact .stay _
  | test cpu cpus =>
    simp only [fbBpfBindStep]
    by_cases hport : (a.priv cpu).port dir = idpUnknown
    · simp only [if_pos hport]
      exact .pass rfl hport
    · simp only [if_neg hport]
      exact .refuse
  | write cpu cpus => exact .write
  | lock cpu cpus => exact .stay _
  | unlock cpu cpus => exact .stay _
  | fail cpu => exact .stay _
  | done ret => exact .stay _

theorem bindStep_move (hf : t.bindStep = some f) (a : PercpuAreas) (pc : EventPc) :
    BindMove dir idp (pc.testing t) a.priv pc.pos (f dir idp a pc).1.priv
      (f dir idp a pc).2.pos := by
  rcases bindStep_cases hf with ⟨ht, rfl⟩ | ⟨-, rfl⟩
  · exact portBindStep_move ht a pc
  · exact fbBpfBindStep_move a pc

/-! ## The winner and the loser -/

section Race

variable {cpus : List Cpu} {priv priv' : Cpu → Priv} {pos pos' : BindPos} {testing : Option Cpu}

/-- An event that has passed its first test: the ports it has written are its own. -/
inductive Ahead (dir : PathType) (idp : Idp) (cpus : List Cpu) (priv : Cpu → Priv) :
    BindPos → Prop
  | before {written rest : List Cpu} (hne : written ≠ []) (hcpus : cpus = written ++ rest)
      (hport : ∀ c ∈ written, (priv c).port dir = idp) : Ahead dir idp cpus priv (.before rest)
  | between {written rest : List Cpu} {cpu : Cpu} (hcpus : cpus = written ++ cpu :: rest)
      (hport : ∀ c ∈ written, (priv c).port dir = idp) :
      Ahead dir idp cpus priv (.between cpu rest)
  | won (hport : ∀ c ∈ cpus, (priv c).port dir = idp) : Ahead dir idp cpus priv (.ended .ok)
  | lost {written rest : List Cpu} (hne : written ≠ []) (hcpus : cpus = written ++ rest)
      (hport : ∀ c ∈ written, (priv c).port dir = idp) : Ahead dir idp cpus priv (.ended .bad)

/-- An event that has not passed its first test. -/
def Behind (cpus : List Cpu) (pos : BindPos) : Prop := pos = .before cpus ∨ pos = .ended .bad

theorem Ahead.move (h : Ahead dir idp cpus priv pos)
    (hm : BindMove dir idp testing priv pos priv' pos') : Ahead dir idp cpus priv' pos' := by
  cases hm with
  | stay => exact h
  | finish =>
    obtain ⟨hne, hcpus, hport⟩ := h
    rw [List.append_nil] at hcpus
    exact .won (hcpus ▸ hport)
  | refuse =>
    obtain ⟨hne, hcpus, hport⟩ := h
    exact .lost hne hcpus hport
  | pass =>
    obtain ⟨-, hcpus, hport⟩ := h
    exact .between hcpus hport
  | @write cpu rest =>
    cases h with
    | @between written _ _ hcpus hport =>
      have hwritten : cpus = (written ++ [cpu]) ++ rest := by simp [hcpus]
      refine .before (by simp) hwritten fun c hc => ?_
      by_cases heq : c = cpu
      · subst heq
        rw [Function.update_self]
        exact Function.update_self ..
      · rw [Function.update_of_ne heq]
        refine hport c ?_
        simpa [heq] using hc

/-- An event behind writes nothing; its first test makes it the one ahead. -/
theorem Behind.move (h : Behind cpus pos) (hne : cpus ≠ [])
    (hm : BindMove dir idp testing priv pos priv' pos') :
    priv' = priv ∧ (Behind cpus pos' ∨ ∃ cpu rest, cpus = cpu :: rest ∧ testing = some cpu ∧
      (priv cpu).port dir = idpUnknown ∧ pos' = .between cpu rest) := by
  rcases h with rfl | rfl
  · cases hm with
    | stay => exact ⟨rfl, .inl (.inl rfl)⟩
    | finish => exact absurd rfl hne
    | refuse => exact ⟨rfl, .inl (.inr rfl)⟩
    | pass ht hfree => exact ⟨rfl, .inr ⟨_, _, rfl, ht, hfree, rfl⟩⟩
  · cases hm with
    | stay => exact ⟨rfl, .inl (.inr rfl)⟩

/-- Past its first write the event ahead keeps the first port in use. -/
theorem Ahead.first_used (h : Ahead dir idp cpus priv pos) (hidp : idp ≠ idpUnknown) {cpu : Cpu}
    {rest : List Cpu} (hcpus : cpus = cpu :: rest) (hpos : ∀ rest', pos ≠ .between cpu rest') :
    (priv cpu).port dir ≠ idpUnknown := by
  have hwritten : ∀ written rest' : List Cpu, written ≠ [] → cpus = written ++ rest' →
      (∀ c ∈ written, (priv c).port dir = idp) → (priv cpu).port dir ≠ idpUnknown := by
    intro written rest' hne happ hport
    obtain ⟨c, cs, rfl⟩ := List.exists_cons_of_ne_nil hne
    obtain ⟨rfl, -⟩ := List.cons.inj (hcpus.symm.trans happ)
    rw [hport cpu List.mem_cons_self]
    exact hidp
  cases h with
  | before hne happ hport => exact hwritten _ _ hne happ hport
  | @between written rest' c happ hport =>
    refine hwritten written (c :: rest') ?_ happ hport
    rintro rfl
    obtain ⟨rfl, -⟩ := List.cons.inj (hcpus.symm.trans happ)
    exact hpos rest' rfl
  | won hport => exact hwritten cpus [] (by simp [hcpus]) (by simp) hport
  | lost hne happ hport => exact hwritten _ _ hne happ hport

end Race

/-- No port is tested that the other event has found free and is yet to write. -/
def Exclusive (t : FbType) (c : Config PercpuAreas EventPc EventPc) : Thread → Prop
  | .first => ∀ cpu ∈ c.first.testing t, c.second.pending ≠ some cpu
  | .second => ∀ cpu ∈ c.second.testing t, c.first.pending ≠ some cpu

instance (t : FbType) (c : Config PercpuAreas EventPc EventPc) :
    ∀ turn, Decidable (Exclusive t c turn)
  | .first => inferInstanceAs (Decidable (∀ cpu ∈ c.first.testing t, c.second.pending ≠ some cpu))
  | .second => inferInstanceAs (Decidable (∀ cpu ∈ c.second.testing t, c.first.pending ≠ some cpu))

/-- One event may be ahead, the other is behind. -/
inductive Raced (dir : PathType) (X Y : Idp) (cpus : List Cpu) (priv : Cpu → Priv)
    (pos pos' : BindPos) : Prop
  | level (h : Behind cpus pos) (h' : Behind cpus pos')
  | first (h : Ahead dir X cpus priv pos) (h' : Behind cpus pos')
  | second (h : Behind cpus pos) (h' : Ahead dir Y cpus priv pos')

section Raced

variable {X Y : Idp} {cpus : List Cpu} {priv priv' : Cpu → Priv} {pos pos' posn : BindPos}
  {testing : Option Cpu}

theorem Raced.symm (h : Raced dir X Y cpus priv pos pos') : Raced dir Y X cpus priv pos' pos := by
  cases h with
  | level h h' => exact .level h' h
  | first h h' => exact .second h' h
  | second h h' => exact .first h' h

/-- A step of the first event. -/
theorem Raced.move (h : Raced dir X Y cpus priv pos pos') (hne : cpus ≠ [])
    (hY : Y ≠ idpUnknown) (hm : BindMove dir X testing priv pos priv' posn)
    (hexcl : ∀ cpu ∈ testing, ∀ rest, pos' ≠ .between cpu rest) :
    Raced dir X Y cpus priv' posn pos' := by
  cases h with
  | level h h' =>
    obtain ⟨rfl, hb | ⟨cpu, rest, hcpus, -, -, rfl⟩⟩ := h.move hne hm
    · exact .level hb h'
    · exact .first (.between (hcpus.trans (List.nil_append _).symm) (by simp)) h'
  | first h h' => exact .first (h.move hm) h'
  | second h h' =>
    obtain ⟨rfl, hb | ⟨cpu, rest, hcpus, htest, hfree, rfl⟩⟩ := h.move hne hm
    · exact .second hb h'
    · exact absurd hfree (h'.first_used hY hcpus (hexcl cpu htest))

theorem Raced.ok_first (h : Raced dir X Y cpus priv (.ended .ok) pos') :
    pos' ≠ .ended .ok ∧ ∀ c ∈ cpus, (priv c).port dir = X := by
  have hnot : ¬ Behind cpus (.ended .ok) := by
    rintro (h | h) <;> cases h
  cases h with
  | level h h' => exact absurd h hnot
  | first h h' =>
    refine ⟨?_, ?_⟩
    · rintro rfl
      exact hnot h'
    · cases h with
      | won hport => exact hport
  | second h h' => exact absurd h hnot

end Raced

/-! ## The lock of the bpf block -/

/-- The lock a handler of the bpf block holds. -/
def EventPc.holding : EventPc → Option Cpu
  | .test cpu _ | .write cpu _ | .unlock cpu _ | .fail cpu => some cpu
  | _ => none

theorem fbBpfBindStep_lock (a : PercpuAreas) (pc : EventPc) :
    LockMove a.locked pc.holding (fbBpfBindStep dir idp a pc).1.locked
      (fbBpfBindStep dir idp a pc).2.holding := by
  cases pc with
  | loop cpus =>
    cases cpus with
    | nil => exact .keep
    | cons cpu cpus =>
      simp only [fbBpfBindStep]
      split_ifs with h
      · exact .keep
      · exact .acquire (by simpa using h) rfl
  | test cpu cpus =>
    simp only [fbBpfBindStep]
    split_ifs <;> exact .keep
  | unlock cpu cpus => exact .release rfl
  | fail cpu => exact .release rfl
  | lock | write | done => exact .keep

/-- The handler of the bpf block takes its lock before the test only. -/
theorem fbBpfBindStep_not_lock (a : PercpuAreas) {pc : EventPc} (h : ∀ c cs, pc ≠ .lock c cs)
    (c : Cpu) (cs : List Cpu) : (fbBpfBindStep dir idp a pc).2 ≠ .lock c cs := by
  cases pc with
  | loop cpus =>
    cases cpus with
    | nil => exact EventPc.noConfusion
    | cons cpu cpus =>
      simp only [fbBpfBindStep]
      split_ifs <;> exact EventPc.noConfusion
  | test cpu cpus =>
    simp only [fbBpfBindStep]
    split_ifs <;> exact EventPc.noConfusion
  | lock cpu cpus => exact absurd rfl (h cpu cpus)
  | write | unlock | fail | done => exact EventPc.noConfusion

/-- Two handlers of a bpf block hold different locks. -/
structure BpfLocked (c : Config PercpuAreas EventPc EventPc) : Prop where
  excluded : Excluded c.shared.locked c.first.holding c.second.holding
  first : ∀ cpu cpus, c.first ≠ .lock cpu cpus
  second : ∀ cpu cpus, c.second ≠ .lock cpu cpus

theorem bpfLocked_step {X Y : Idp} {c : Config PercpuAreas EventPc EventPc} (h : BpfLocked c)
    (turn : Thread) : BpfLocked (step (fbBpfBindStep dir X) (fbBpfBindStep dir Y) c turn) := by
  cases turn with
  | first =>
    exact ⟨h.excluded.move (fbBpfBindStep_lock ..), fbBpfBindStep_not_lock _ h.first, h.second⟩
  | second =>
    exact ⟨(h.excluded.symm.move (fbBpfBindStep_lock ..)).symm, h.first,
      fbBpfBindStep_not_lock _ h.second⟩

theorem holding_of_testing {pc : EventPc} {cpu : Cpu} (h : pc.testing .bpf = some cpu) :
    pc.holding = some cpu := by
  cases pc with
  | loop cpus => cases cpus <;> cases h
  | test c cs => exact h
  | lock | write | unlock | fail | done => cases h

theorem holding_of_pending {pc : EventPc} {cpu : Cpu} (h : pc.pending = some cpu)
    (hlock : ∀ c cs, pc ≠ .lock c cs) : pc.holding = some cpu := by
  cases pc with
  | lock c cs => exact absurd rfl (hlock c cs)
  | write c cs => exact h
  | loop | test | unlock | fail | done => cases h

theorem BpfLocked.exclusive {c : Config PercpuAreas EventPc EventPc} (h : BpfLocked c)
    (turn : Thread) : Exclusive .bpf c turn := by
  cases turn with
  | first =>
    exact fun cpu ht hp => h.excluded.apart cpu (holding_of_testing ht)
      (holding_of_pending hp h.second)
  | second =>
    exact fun cpu ht hp => h.excluded.apart cpu (holding_of_pending hp h.first)
      (holding_of_testing ht)

/-- Under the lock every schedule is exclusive. -/
theorem bpf_exclusive {X Y : Idp} (sched : List Thread) :
    ∀ {c : Config PercpuAreas EventPc EventPc}, BpfLocked c →
      Transition.Allowed (step (fbBpfBindStep dir X) (fbBpfBindStep dir Y)) (Exclusive .bpf) c
        sched := by
  induction sched with
  | nil => exact fun _ => trivial
  | cons turn sched ih => exact fun h => ⟨h.exclusive turn, ih (bpfLocked_step h turn)⟩

/-! ## Two events -/

/-- Two events for the port `dir` of a block, both at the start of their loops. -/
def twoBinders (priv : Cpu → Priv) (cpus : List Cpu) : Config PercpuAreas EventPc EventPc :=
  ⟨⟨priv, fun _ => false⟩, .loop cpus, .loop cpus⟩

theorem raced_step (hf : t.bindStep = some f) {X Y : Idp} (hX : X ≠ idpUnknown)
    (hY : Y ≠ idpUnknown) {cpus : List Cpu} (hne : cpus ≠ [])
    {c : Config PercpuAreas EventPc EventPc} {turn : Thread}
    (h : Raced dir X Y cpus c.shared.priv c.first.pos c.second.pos) (hok : Exclusive t c turn) :
    let c' := step (f dir X) (f dir Y) c turn
    Raced dir X Y cpus c'.shared.priv c'.first.pos c'.second.pos := by
  cases turn with
  | first =>
    exact h.move hne hY (bindStep_move hf c.shared c.first)
      fun cpu ht rest hpos => hok cpu ht (pending_of_between hpos)
  | second =>
    exact (h.symm.move hne hX (bindStep_move hf c.shared c.second)
      fun cpu ht rest hpos => hok cpu ht (pending_of_between hpos)).symm

/-- **Safety.** Of two concurrent `FBLOCK_BIND_IDP` events for one port at most one is accepted,
and then every CPU's port holds its idp: always for the bpf block, for the other blocks with two
ports in every interleaving in which no port is tested between the other event's test and write. -/
theorem bind_event_exclusive (t : FbType)
    (f : PathType → Idp → PercpuAreas → EventPc → PercpuAreas × EventPc)
    (hf : t.bindStep = some f) (dir : PathType) (X Y : Idp) (hX : X ≠ idpUnknown)
    (hY : Y ≠ idpUnknown) (online : OnlineCpus) (priv : Cpu → Priv) (sched : List Thread)
    (hok : t = .bpf ∨ Transition.Allowed (step (f dir X) (f dir Y)) (Exclusive t)
      (twoBinders priv online.cpus) sched) :
    let c := Interleave.run (f dir X) (f dir Y) (twoBinders priv online.cpus) sched
    ¬ (c.first = .done .ok ∧ c.second = .done .ok) ∧
      (c.first = .done .ok → ∀ cpu ∈ online.cpus, (c.shared.priv cpu).port dir = X) ∧
      (c.second = .done .ok → ∀ cpu ∈ online.cpus, (c.shared.priv cpu).port dir = Y) := by
  have hallowed : Transition.Allowed (step (f dir X) (f dir Y)) (Exclusive t)
      (twoBinders priv online.cpus) sched := by
    rcases hok with rfl | hok
    · obtain ⟨hne, -⟩ | ⟨-, rfl⟩ := bindStep_cases hf
      · exact absurd rfl hne
      · refine bpf_exclusive sched ⟨⟨?_, ?_⟩, ?_, ?_⟩ <;> simp [twoBinders, EventPc.holding]
    · exact hok
  have hstart : Raced dir X Y online.cpus priv (.before online.cpus) (.before online.cpus) :=
    .level (.inl rfl) (.inl rfl)
  have hend := Transition.invariant_of_allowed
    (I := fun c : Config PercpuAreas EventPc EventPc =>
      Raced dir X Y online.cpus c.shared.priv c.first.pos c.second.pos)
    (fun c turn h hok => raced_step hf hX hY online.nonempty h hok) hstart hallowed
  intro c
  have hend : Raced dir X Y online.cpus c.shared.priv c.first.pos c.second.pos := hend
  have hfirst : c.first = .done .ok → c.second.pos ≠ .ended .ok ∧
      ∀ cpu ∈ online.cpus, (c.shared.priv cpu).port dir = X := by
    intro h
    rw [h] at hend
    exact hend.ok_first
  have hsecond : c.second = .done .ok → ∀ cpu ∈ online.cpus, (c.shared.priv cpu).port dir = Y := by
    intro h
    rw [h] at hend
    exact hend.symm.ok_first.2
  refine ⟨?_, fun h => (hfirst h).2, hsecond⟩
  rintro ⟨h1, h2⟩
  exact (hfirst h1).1 (by rw [h2]; rfl)

/-- CPUs 0 and 1. -/
def twoCpus : OnlineCpus := ⟨[0, 1], by decide, by decide⟩

/-- The first event has bound the port of CPU 0 when the second one tests it. -/
def afterWrite : List Thread :=
  [.first, .first, .first, .second, .first, .first, .first, .first, .first, .first]

/-- The second event tests each port while the first one is about to write it. -/
def beforeWrite : List Thread :=
  let round := [.first, .second, .first, .first, .first, .second, .second, .second]
  round ++ round ++ [.first, .second]

theorem bind_event_exclusive_dummy :
    let c := Interleave.run (fbDummyBindStep .egress 3) (fbDummyBindStep .egress 4)
      (twoBinders (fun _ => Priv.init 0 0) twoCpus.cpus) afterWrite
    c.first = .done .ok ∧ c.second = .done .bad ∧
      ∀ cpu ∈ twoCpus.cpus, (c.shared.priv cpu).port .egress = 3 := by
  refine ⟨by decide, by decide, ?_⟩
  exact (bind_event_exclusive .dummy fbDummyBindStep rfl .egress 3 4 (by decide) (by decide) twoCpus
    (fun _ => Priv.init 0 0) afterWrite (.inr (by decide))).2.1 (by decide)

/-- Both events of a dummy block find the port free on each CPU, and both are accepted. -/
theorem bind_event_both :
    let c := Interleave.run (fbDummyBindStep .egress 3) (fbDummyBindStep .egress 4)
      (twoBinders (fun _ => Priv.init 0 0) twoCpus.cpus) beforeWrite
    c.first = .done .ok ∧ c.second = .done .ok ∧
      ∀ cpu ∈ twoCpus.cpus, (c.shared.priv cpu).port .egress = 4 := by
  decide

end Lana
