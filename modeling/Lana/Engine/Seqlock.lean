import Lana.Engine.Blocks
import Lana.Library.Numerals

/-!
# Retried reads

The blocks read their ports under a sequence lock and the totals of the counter under a
`u64_stats_sync`: the read section is passed again as long as a writer has come in between.  Here
each pass comes with what it sees, all but the last pass arbitrary.

The read sections carry variables from one pass to the next.  `drop` is set and never cleared, the
tee keeps the last clone port it has seen, and `fb_counter_proc_show` adds up the counters of every
pass.  So the outcome is that of the last pass exactly if no earlier one has left something behind
(`retried_reads_iff`, `counter_totals_iff`).  Read without a retry, the file shows what the block
has counted (`fbCounterProcShow_packets`).
-/

namespace Lana

open Numerals

/-! ## Ports -/

/-- What a pass sees of the private area: `port[*dir]` and, in a tee, `port_clone`. -/
structure Snapshot where
  port : Idp
  portClone : Idp
  deriving DecidableEq

/-- The area seen in one pass without a writer. -/
def Priv.snapshot (priv : Priv) (dir : PathType) : Snapshot := ⟨priv.port dir, priv.portClone⟩

/-- The packet and the variables `drop` and `port_clone`. -/
structure ReadVars where
  skb : Skb
  drop : Bool
  portClone : Idp

namespace ReadVars

/-- Before the first pass. -/
def start (skb : Skb) : ReadVars := ⟨skb, false, idpUnknown⟩

/-- One pass of `fb_dummy_netrx` and `fb_counter_netrx`; `idp` is that of the block. -/
def passPort (idp : Idp) (v : ReadVars) (s : Snapshot) : ReadVars :=
  { v with
    skb := writeNextIdpToSkb v.skb idp s.port
    drop := if s.port = idpUnknown then true else v.drop }

/-- One pass of `fb_tee_netrx`. -/
def passTee (idp : Idp) (v : ReadVars) (s : Snapshot) : ReadVars :=
  { v.passPort idp s with
    portClone := if s.portClone ≠ idpUnknown then s.portClone else v.portClone }

/-- The loop: the passes that are followed by a retry, and the last one. -/
def loop (pass : ReadVars → Snapshot → ReadVars) (skb : Skb) (failed : List Snapshot)
    (last : Snapshot) : ReadVars :=
  pass (failed.foldl pass (start skb)) last

end ReadVars

open ReadVars

/-- The read section of `fb_dummy_netrx`. -/
def fbDummyRead (idp : Idp) := loop (passPort idp)

/-- The read section of `fb_counter_netrx`. -/
def fbCounterRead (idp : Idp) := loop (passPort idp)

/-- The read section of `fb_tee_netrx`. -/
def fbTeeRead (idp : Idp) := loop (passTee idp)

/-! ### Behind the read section -/

section Leave

variable (k : Kernel) (w : World) (fb : Addr) (skb : Skb) (dir : PathType) (failed : List Snapshot)
  (last : Snapshot)

/-- The end of the three functions. -/
def ReadVars.leave (v : ReadVars) : Rx World :=
  if v.drop then .ret (kfreeSkb w v.skb) v.skb dir ppeDropped else .ret w v.skb dir ppeSuccess

/-- `fb_dummy_netrx` with retries. -/
def fbDummyNetrxRetried : Rx World := (fbDummyRead (w.st.idp fb) skb failed last).leave w dir

/-- `fb_counter_netrx` with retries. -/
def fbCounterNetrxRetried : Rx World :=
  (fbCounterRead (w.st.idp fb) skb failed last).leave
    (w.setArea k fb ((w.area k fb).count skb)) dir

/-- `fb_tee_netrx` with retries. -/
def fbTeeNetrxRetried : Rx World :=
  let v := fbTeeRead (w.st.idp fb) skb failed last
  if v.portClone ≠ idpUnknown ∧ k.skbCopy v.skb then
    .engineBacklogTail (w.make v.skb.copied)
      (writeNextIdpToSkb v.skb.copied (w.st.idp fb) v.portClone) dir fun w => v.leave w dir
  else v.leave w dir

end Leave

section Once

variable (k : Kernel) (w : World) (fb : Addr) (skb : Skb) (dir : PathType)

theorem leave_eq_forward (priv : Priv) :
    (passPort (w.st.idp fb) (start skb) (priv.snapshot dir)).leave w dir =
      forward w fb skb dir priv := by
  unfold ReadVars.leave forward
  dsimp only [passPort, Priv.snapshot, start]
  split_ifs <;> simp_all

/-- Without a retry the functions are those of the engine. -/
theorem fbDummyNetrx_eq : fbDummyNetrx k w fb skb dir =
    fbDummyNetrxRetried w fb skb dir [] ((w.area k fb).snapshot dir) :=
  (leave_eq_forward w fb skb dir _).symm

theorem fbCounterNetrx_eq : fbCounterNetrx k w fb skb dir =
    fbCounterNetrxRetried k w fb skb dir [] ((w.area k fb).snapshot dir) :=
  (leave_eq_forward (w.setArea k fb ((w.area k fb).count skb)) fb skb dir _).symm

/-- The engine goes on in the world of the call, where the block has the idp it had. -/
theorem runRx_fbTeeNetrx_eq (pp : Engine World → Skb → PathType → Option (ℤ × Engine World))
    (e : Engine World) : runRx pp (fbTeeNetrx k w fb skb dir) e =
      runRx pp (fbTeeNetrxRetried k w fb skb dir [] ((w.area k fb).snapshot dir)) e := by
  have hclone : (fbTeeRead (w.st.idp fb) skb [] ((w.area k fb).snapshot dir)).portClone =
      (w.area k fb).portClone := by
    show (if (w.area k fb).portClone ≠ idpUnknown then (w.area k fb).portClone else idpUnknown) = _
    split_ifs with h
    · rfl
    · exact (not_not.1 h).symm
  have hleave : ∀ u : World, u.st = w.st →
      (fbTeeRead (w.st.idp fb) skb [] ((w.area k fb).snapshot dir)).leave u dir =
        forward u fb skb dir (w.area k fb) := by
    intro u hu
    rw [← leave_eq_forward u fb skb dir (w.area k fb), hu]
    rfl
  have hskb : (fbTeeRead (w.st.idp fb) skb [] ((w.area k fb).snapshot dir)).skb =
      writeNextIdpToSkb skb (w.st.idp fb) ((w.area k fb).port dir) := rfl
  unfold fbTeeNetrx fbTeeNetrxRetried
  dsimp only
  rw [hclone, hskb]
  split_ifs
  · unfold runRx
    dsimp only
    rw [hleave (w.make _) rfl]
  · rw [hleave w rfl]

end Once

/-! ### The outcome -/

/-- The next idp of the packet, whether it is dropped, and where a copy of it is sent. -/
structure Decision where
  next : Idp
  drop : Bool
  clone : Option Idp
  deriving DecidableEq

/-- What the variables decide behind the read section. -/
def ReadVars.decision (v : ReadVars) : Decision :=
  ⟨readNextIdpFromSkb v.skb, v.drop, if v.portClone ≠ idpUnknown then some v.portClone else none⟩

/-- What a `netfb_rx` has decided once it returns. -/
def Rx.decision : Rx World → Decision
  | .ret _ skb _ code => ⟨readNextIdpFromSkb skb, code = ppeDropped, none⟩
  | .processPacket w _ _ k => (k w ppeSuccess).decision
  | .engineBacklogTail w skb _ k => { (k w).decision with clone := some (readNextIdpFromSkb skb) }

theorem decision_leave (w : World) (dir : PathType) (v : ReadVars) :
    (v.leave w dir).decision = { v.decision with clone := none } := by
  unfold ReadVars.leave
  split_ifs with h
  · simp [Rx.decision, ReadVars.decision, h]
  · simp [Rx.decision, ReadVars.decision, h, ppeSuccess, ppeDropped]

/-- The variables decide what the tee does, up to the memory for a copy. -/
theorem decision_fbTeeNetrxRetried (k : Kernel) (w : World) (fb : Addr) (skb : Skb) (dir : PathType)
    (failed : List Snapshot) (last : Snapshot) (hmem : ∀ skb, k.skbCopy skb = true) :
    (fbTeeNetrxRetried k w fb skb dir failed last).decision =
      (fbTeeRead (w.st.idp fb) skb failed last).decision := by
  unfold fbTeeNetrxRetried
  dsimp only
  split_ifs with h
  · rw [Rx.decision, decision_leave]
    simp [ReadVars.decision, h.1, readNextIdpFromSkb, writeNextIdpToSkb]
  · rw [decision_leave]
    simp only [hmem, and_true, not_not] at h
    simp [ReadVars.decision, h]

section Decision

variable (idp : Idp) (failed : List Snapshot)

theorem drop_passPort (v : ReadVars) (s : Snapshot) :
    (passPort idp v s).drop = if s.port = idpUnknown then true else v.drop := rfl

theorem drop_passTee (v : ReadVars) (s : Snapshot) :
    (passTee idp v s).drop = if s.port = idpUnknown then true else v.drop := rfl

theorem drop_foldl {pass : ReadVars → Snapshot → ReadVars}
    (hpass : ∀ v s, (pass v s).drop = if s.port = idpUnknown then true else v.drop) (v : ReadVars) :
    (failed.foldl pass v).drop = true ↔ v.drop = true ∨ ∃ s ∈ failed, s.port = idpUnknown := by
  induction failed generalizing v with
  | nil => simp
  | cons s failed ih =>
    rw [List.foldl_cons, ih, hpass, List.exists_mem_cons_iff, ← or_assoc]
    refine or_congr_left ?_
    split_ifs with h <;> simp [h]

theorem portClone_foldl_passPort (v : ReadVars) :
    (failed.foldl (passPort idp) v).portClone = v.portClone := by
  induction failed generalizing v with
  | nil => rfl
  | cons s failed ih => exact ih _

theorem portClone_foldl_passTee (v : ReadVars) :
    (failed.foldl (passTee idp) v).portClone ≠ idpUnknown ↔
      v.portClone ≠ idpUnknown ∨ ∃ s ∈ failed, s.portClone ≠ idpUnknown := by
  induction failed generalizing v with
  | nil => simp
  | cons s failed ih =>
    rw [List.foldl_cons, ih, List.exists_mem_cons_iff, ← or_assoc]
    refine or_congr_left ?_
    show (if s.portClone ≠ idpUnknown then s.portClone else v.portClone) ≠ idpUnknown ↔ _
    split_ifs with h <;> simp_all

variable {failed} (skb : Skb) (last : Snapshot)

/-- The packet is dropped as the last pass says, unless an earlier one has seen the port unbound. -/
theorem drop_loop_iff {pass : ReadVars → Snapshot → ReadVars}
    (hpass : ∀ v s, (pass v s).drop = if s.port = idpUnknown then true else v.drop) :
    (loop pass skb failed last).drop = (loop pass skb [] last).drop ↔
      last.port = idpUnknown ∨ ∀ s ∈ failed, s.port ≠ idpUnknown := by
  have hdrop := drop_foldl failed hpass (start skb)
  unfold loop
  rw [hpass, hpass]
  by_cases hlast : last.port = idpUnknown
  · simp [hlast]
  · rw [if_neg hlast, if_neg hlast, List.foldl_nil, show (start skb).drop = false from rfl,
      Bool.eq_false_iff, Ne, hdrop]
    simp [start, hlast]

/-- The tee sends a copy as the last pass says, unless an earlier pass has seen a clone port. -/
theorem clone_loop_iff :
    (loop (passTee idp) skb failed last).decision.clone =
        (loop (passTee idp) skb [] last).decision.clone ↔
      last.portClone ≠ idpUnknown ∨ ∀ s ∈ failed, s.portClone = idpUnknown := by
  have hclone := portClone_foldl_passTee idp failed (start skb)
  by_cases hlast : last.portClone = idpUnknown
  · have hone : (loop (passTee idp) skb [] last).portClone = idpUnknown :=
      if_neg (not_not.2 hlast)
    have hall : (loop (passTee idp) skb failed last).portClone =
        (failed.foldl (passTee idp) (start skb)).portClone := if_neg (not_not.2 hlast)
    have hkept : (∀ s ∈ failed, s.portClone = idpUnknown) ↔
        (failed.foldl (passTee idp) (start skb)).portClone = idpUnknown := by
      rw [← not_iff_not, ← Ne, hclone]
      simp [start]
    unfold ReadVars.decision
    rw [hone, hall, hkept]
    simp [hlast]
  · have h : ∀ l, (loop (passTee idp) skb l last).portClone = last.portClone :=
      fun l => if_pos hlast
    unfold ReadVars.decision
    simp [h, hlast]

end Decision

/-- The variables decide what a block with two ports does. -/
theorem decision_loop_passPort (idp : Idp) (skb : Skb) (failed : List Snapshot) (last : Snapshot) :
    (loop (passPort idp) skb failed last).decision.clone = none := by
  have hclone : (loop (passPort idp) skb failed last).portClone = idpUnknown :=
    portClone_foldl_passPort idp failed (start skb)
  simp [ReadVars.decision, hclone]

theorem decision_fbDummyNetrxRetried (w : World) (fb : Addr) (skb : Skb) (dir : PathType)
    (failed : List Snapshot) (last : Snapshot) :
    (fbDummyNetrxRetried w fb skb dir failed last).decision =
      (fbDummyRead (w.st.idp fb) skb failed last).decision := by
  unfold fbDummyNetrxRetried
  rw [decision_leave, ← decision_loop_passPort (w.st.idp fb) skb failed last]
  rfl

theorem decision_fbCounterNetrxRetried (k : Kernel) (w : World) (fb : Addr) (skb : Skb)
    (dir : PathType) (failed : List Snapshot) (last : Snapshot) :
    (fbCounterNetrxRetried k w fb skb dir failed last).decision =
      (fbCounterRead (w.st.idp fb) skb failed last).decision := by
  unfold fbCounterNetrxRetried
  rw [decision_leave, ← decision_loop_passPort (w.st.idp fb) skb failed last]
  rfl

/-- **Retried reads.** The next idp is always that of the last pass.  The packet is dropped as the
last pass says exactly if no pass before has seen the port unbound while the last one sees it bound;
the tee sends its copy as the last pass says exactly if no pass before has seen a clone port while
the last one sees none. -/
theorem retried_reads_iff (idp : Idp) (skb : Skb) (failed : List Snapshot) (last : Snapshot) :
    ((fbDummyRead idp skb failed last).decision = (fbDummyRead idp skb [] last).decision ↔
        (last.port = idpUnknown ∨ ∀ s ∈ failed, s.port ≠ idpUnknown)) ∧
      ((fbCounterRead idp skb failed last).decision = (fbCounterRead idp skb [] last).decision ↔
        (last.port = idpUnknown ∨ ∀ s ∈ failed, s.port ≠ idpUnknown)) ∧
      ((fbTeeRead idp skb failed last).decision = (fbTeeRead idp skb [] last).decision ↔
        (last.port = idpUnknown ∨ ∀ s ∈ failed, s.port ≠ idpUnknown) ∧
          (last.portClone ≠ idpUnknown ∨ ∀ s ∈ failed, s.portClone = idpUnknown)) := by
  have hport : (loop (passPort idp) skb failed last).decision =
      (loop (passPort idp) skb [] last).decision ↔
        (last.port = idpUnknown ∨ ∀ s ∈ failed, s.port ≠ idpUnknown) := by
    have hclone := decision_loop_passPort idp skb
    rw [← drop_loop_iff skb last (drop_passPort idp)]
    exact ⟨fun h => congrArg Decision.drop h,
      fun h => Decision.mk.injEq .. ▸ ⟨rfl, h, (hclone failed last).trans (hclone [] last).symm⟩⟩
  refine ⟨hport, hport, ?_⟩
  rw [← clone_loop_iff idp skb last, ← drop_loop_iff skb last (drop_passTee idp)]
  exact ⟨fun h => ⟨congrArg Decision.drop h, congrArg Decision.clone h⟩,
    fun h => Decision.mk.injEq .. ▸ ⟨rfl, h.1, h.2⟩⟩

/-- The tee with its port just bound and its clone port just unbound: the packet is dropped and a
copy of it sent, while the last pass says to do neither. -/
theorem retried_reads_leak :
    (fbTeeRead 1 ⟨⟨0, []⟩, 0, 60, 1, 1, 0, .ingress⟩ [⟨0, 7⟩] ⟨5, 0⟩).decision = ⟨5, true, some 7⟩ ∧
      (fbTeeRead 1 ⟨⟨0, []⟩, 0, 60, 1, 1, 0, .ingress⟩ [] ⟨5, 0⟩).decision = ⟨5, false, none⟩ := by
  decide

/-! ## Totals -/

/-- The counters of a CPU as a pass reads them: packets and bytes. -/
abbrev Counters := UInt64 × UInt64

/-- The counters of a CPU: what the passes that are followed by a retry read, and the last one. -/
structure CpuStats where
  failed : List Counters
  read : Counters

/-- The sums after one more CPU. -/
def CpuStats.addTo (sum : Counters) (cpu : CpuStats) : Counters :=
  cpu.failed.foldl (· + ·) sum + cpu.read

/-- `"%llu %llu\n"`. -/
def totalsLine (sum : Counters) : List UInt8 :=
  numeral 10 sum.1.toNat ++ ascii " " ++ numeral 10 sum.2.toNat ++ ascii "\n"

/-- `fb_counter_proc_show` for the online CPUs. -/
def fbCounterProcShow (cpus : List CpuStats) : List UInt8 :=
  snprintf 256 (totalsLine (cpus.foldl CpuStats.addTo 0))

theorem foldl_add (l : List Counters) (sum : Counters) : l.foldl (· + ·) sum = sum + l.sum := by
  induction l generalizing sum with
  | nil => simp
  | cons c l ih => rw [List.foldl_cons, ih, List.sum_cons, add_assoc]

/-- The sums are those of the last passes and of all others. -/
theorem foldl_addTo (cpus : List CpuStats) (sum : Counters) :
    cpus.foldl CpuStats.addTo sum =
      sum + (cpus.map CpuStats.read).sum + (cpus.flatMap CpuStats.failed).sum := by
  induction cpus generalizing sum with
  | nil => simp
  | cons cpu cpus ih =>
    rw [List.foldl_cons, ih, CpuStats.addTo, foldl_add, List.map_cons, List.sum_cons,
      List.flatMap_cons, List.sum_append]
    abel

theorem totalsLine_eq (sum : Counters) :
    totalsLine sum = numeral 10 sum.1.toNat ++ 32 :: (numeral 10 sum.2.toNat ++ [10]) := by
  unfold totalsLine
  rw [List.append_assoc, List.append_assoc]
  rfl

/-- Two numbers of 64 bits fit the buffer. -/
theorem snprintf_totalsLine (sum : Counters) : snprintf 256 (totalsLine sum) = totalsLine sum := by
  have hdigits : ∀ n : UInt64, (numeral 10 n.toNat).length ≤ 20 := fun n =>
    length_numeral_le (by decide) (by decide) (n.toNat_lt.trans (by decide))
  have h1 := hdigits sum.1
  have h2 := hdigits sum.2
  refine List.take_of_length_le ?_
  rw [totalsLine_eq]
  simp only [List.length_append, List.length_cons, List.length_nil]
  omega

theorem totalsLine_injective : Function.Injective totalsLine := by
  intro a b h
  rw [totalsLine_eq, totalsLine_eq] at h
  obtain ⟨h1, hrest⟩ := numeral_append_inj (by decide) (by decide) (by decide) (by decide) h
  obtain ⟨h2, -⟩ := numeral_append_inj (by decide) (by decide) (by decide) (by decide)
    (List.cons.inj hrest).2
  exact Prod.ext (UInt64.toNat_inj.1 h1) (UInt64.toNat_inj.1 h2)

/-- **Totals.** The file shows the sums of the counters that each CPU's last pass has read exactly
if what the other passes have read sums up to 0. -/
theorem counter_totals_iff (cpus : List CpuStats) :
    fbCounterProcShow cpus = totalsLine (cpus.map CpuStats.read).sum ↔
      (cpus.flatMap CpuStats.failed).sum = 0 := by
  unfold fbCounterProcShow
  rw [snprintf_totalsLine, totalsLine_injective.eq_iff, foldl_addTo, zero_add, add_eq_left]

/-- One CPU that has counted one packet of 60 bytes, read twice. -/
theorem counter_counted_twice :
    fbCounterProcShow [⟨[(1, 60)], (1, 60)⟩] = ascii "2 120\n" ∧
      totalsLine ([⟨[(1, 60)], (1, 60)⟩].map CpuStats.read).sum = ascii "1 60\n" := by
  decide

/-! ### Packets -/

/-- The counters in a private area. -/
def Priv.counters (priv : Priv) : Counters := (priv.packets, priv.bytes)

/-- What a packet adds to the counters. -/
def Skb.counters (skb : Skb) : Counters := (1, skb.len.toUInt64)

theorem counters_count (priv : Priv) (skb : Skb) :
    (priv.count skb).counters = priv.counters + skb.counters := rfl

/-- The areas of a block after a packet on one CPU. -/
def countOn (area : Cpu → Priv) (p : Cpu × Skb) : Cpu → Priv :=
  Function.update area p.1 ((area p.1).count p.2)

/-- The areas as `fb_counter_netrx` leaves them. -/
theorem fbCounterNetrx_areas (k : Kernel) (w : World) (fb : Addr) (skb : Skb) (dir : PathType) :
    ∃ w' skb' code, fbCounterNetrx k w fb skb dir = .ret w' skb' dir code ∧
      w'.st.privateData fb = countOn (w.st.privateData fb) (k.cpu, skb) := by
  have harea : (w.setArea k fb ((w.area k fb).count skb)).st.privateData fb =
      countOn (w.st.privateData fb) (k.cpu, skb) := Function.update_self ..
  unfold fbCounterNetrx forward
  dsimp only
  split_ifs
  · exact ⟨_, _, _, rfl, harea⟩
  · exact ⟨_, _, _, rfl, harea⟩

section Packets

variable {cpus : List Cpu} {area : Cpu → Priv}

/-- A packet on a CPU that is counted adds to the sum. -/
theorem sum_countOn (hnd : cpus.Nodup) {p : Cpu × Skb} (hp : p.1 ∈ cpus) :
    (cpus.map fun c => (countOn area p c).counters).sum =
      (cpus.map fun c => (area c).counters).sum + p.2.counters := by
  induction cpus with
  | nil => cases hp
  | cons c cpus ih =>
    obtain ⟨hc, hnd⟩ := List.nodup_cons.1 hnd
    rw [List.map_cons, List.map_cons, List.sum_cons, List.sum_cons]
    by_cases hpc : p.1 = c
    · -- the other CPUs count what they did
      have hrest : ∀ d ∈ cpus, (countOn area p d).counters = (area d).counters := by
        intro d hd
        have hne : d ≠ p.1 := fun e => hc (hpc ▸ e ▸ hd)
        unfold countOn
        rw [Function.update_of_ne hne]
      have hself : (countOn area p c).counters = (area c).counters + p.2.counters := by
        unfold countOn
        rw [← hpc, Function.update_self, counters_count]
      rw [hself, List.map_congr_left hrest]
      abel
    · have hself : countOn area p c = area c := Function.update_of_ne (Ne.symm hpc) ..
      have hp : p.1 ∈ cpus := (List.mem_cons.1 hp).resolve_left hpc
      rw [hself, ih hnd hp, add_assoc]

theorem sum_foldl_countOn (hnd : cpus.Nodup) (ps : List (Cpu × Skb)) (hps : ∀ p ∈ ps, p.1 ∈ cpus) :
    (cpus.map fun c => (ps.foldl countOn area c).counters).sum =
      (cpus.map fun c => (area c).counters).sum + (ps.map fun p => p.2.counters).sum := by
  induction ps generalizing area with
  | nil => simp
  | cons p ps ih =>
    obtain ⟨hp, hps⟩ := List.forall_mem_cons.1 hps
    rw [List.foldl_cons, ih hps, sum_countOn hnd hp, List.map_cons, List.sum_cons, add_assoc]

end Packets

/-- Counters read without a retry. -/
def CpuStats.once (read : Counters) : CpuStats := ⟨[], read⟩

theorem fbCounterProcShow_once (l : List Counters) :
    fbCounterProcShow (l.map CpuStats.once) = totalsLine l.sum := by
  have hread : (l.map CpuStats.once).map CpuStats.read = l := by
    rw [List.map_map]
    exact List.map_id l
  have hfailed : (l.map CpuStats.once).flatMap CpuStats.failed = [] := by
    refine List.flatMap_eq_nil_iff.2 fun cpu hcpu => ?_
    obtain ⟨read, -, rfl⟩ := List.mem_map.1 hcpu
    rfl
  rw [fbCounterProcShow, snprintf_totalsLine, foldl_addTo, hread, hfailed, List.sum_nil, zero_add,
    add_zero]

/-- Read without a retry, the file shows the packets that the block has processed on the online CPUs
and their bytes. -/
theorem fbCounterProcShow_packets (online : OnlineCpus) (ps : List (Cpu × Skb))
    (hps : ∀ p ∈ ps, p.1 ∈ online.cpus) :
    fbCounterProcShow (online.cpus.map fun c =>
        .once (ps.foldl countOn (fun _ => Priv.init 0 0) c).counters) =
      totalsLine (ps.map fun p => p.2.counters).sum := by
  have hstart : (online.cpus.map fun _ => (Priv.init 0 0).counters).sum = 0 :=
    List.sum_eq_zero fun c hc => by
      obtain ⟨-, -, rfl⟩ := List.mem_map.1 hc
      rfl
  rw [← Function.comp_def CpuStats.once, ← List.map_map, fbCounterProcShow_once,
    sum_foldl_countOn online.nodup ps hps, hstart, zero_add]

end Lana
