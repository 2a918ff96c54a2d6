import Lana.Library.Interleave
import Lana.User.Registry

/-!
# Packets and removals at once

`process_packet` runs in a read-side critical section: it looks each block of a packet up, counts
it, calls its `netfb_rx` and puts it.  `userctl_remove` looks its block up in a section of its own,
counts it, and goes on outside of it.  A block whose count reaches 0 is handed to `call_rcu` and
freed when the threads that were in a section then have left it.

Any number of threads process packets and run removals, in any interleaving of the loads, the
atomic operations and the changes of the tables.  This file has the system and the accounting of
its counts (`Counted`); `Lana.User.Lifetimes` says when blocks are released and freed.
-/

namespace Lana

open State Interleave

/-! ## Threads -/

/-- Where a thread stands: outside of any function; in `process_packet`, between two blocks, with a
block it has loaded, with one it has counted; in `userctl_remove`. -/
inductive LifePc where
  | idle
  | next
  | found (fb : Addr)
  | inside (fb : Addr)
  | mapping (name : Name)
  | indexing (idp : Idp)
  | fetched (fb : Addr)
  | test (fb : Addr)
  | remove (fb : Addr)
  | unname (fb : Addr)
  | puts (fbs : List Addr) (ret : Ret)

namespace LifePc

/-- The thread is in a read-side critical section. -/
def inSection : LifePc → Bool
  | .next | .found _ | .inside _ | .mapping _ | .indexing _ | .fetched _ => true
  | .idle | .test _ | .remove _ | .unname _ | .puts _ _ => false

/-- The references that the thread will put; that of the tables is its own once it has taken the
block out of `fblmap`. -/
def refs : LifePc → List Addr
  | .inside fb | .test fb | .remove fb => [fb]
  | .unname fb => [fb, fb]
  | .puts fbs _ => fbs
  | .idle | .next | .found _ | .mapping _ | .indexing _ | .fetched _ => []

/-- The block that the thread has a pointer to from its section. -/
def seen : LifePc → Option Addr
  | .found fb | .inside fb | .fetched fb => some fb
  | .idle | .next | .mapping _ | .indexing _ | .test _ | .remove _ | .unname _ | .puts _ _ => none

/-- The blocks that the thread refers to by its references alone. -/
def kept : LifePc → List Addr
  | .test fb | .remove fb => [fb]
  | .unname fb => [fb, fb]
  | .puts fbs _ => fbs
  | .idle | .next | .found _ | .inside _ | .mapping _ | .indexing _ | .fetched _ => []

end LifePc

/-- The blocks and tables, the threads, the callbacks posted, each with the threads it waits for,
and the blocks freed.  The rest is not part of the source: the blocks that a packet has counted up
from 0 (`regained`), those that a callback has found freed (`refreed`), and whether a thread has
accessed a block that was freed (`fault`). -/
structure Traffic (ι : Type*) where
  st : State
  pc : ι → LifePc
  waiting : List (Addr × (ι → Bool))
  freed : List Addr
  regained : List Addr
  refreed : List Addr
  fault : Bool

namespace Traffic

variable {ι : Type*}

def init (s : State) : Traffic ι := ⟨s, fun _ => .idle, [], [], [], [], false⟩

/-- An access of a thread to the object. -/
def touch (s : Traffic ι) (fb : Addr) : Traffic ι :=
  { s with fault := s.fault || decide (fb ∈ s.freed) }

/-- `get_fblock`. -/
def get (s : Traffic ι) (fb : Addr) : Traffic ι := { s with st := getFblock s.st fb }

/-- `put_fblock`. -/
def put (s : Traffic ι) (fb : Addr) : Traffic ι :=
  { s with
    st := putFblock s.st fb
    waiting := if s.st.refcnt fb = 1 ∧ s.st.factory fb ≠ none then
        s.waiting ++ [(fb, fun i => (s.pc i).inSection)] else s.waiting }

/-- `free_fblock_rcu`, called for the block `fb` as the callback `n`. -/
def freeFblockRcu (s : Traffic ι) (n : ℕ) (fb : Addr) : Traffic ι :=
  { s with
    waiting := s.waiting.eraseIdx n
    freed := fb :: s.freed
    refreed := if fb ∈ s.freed then fb :: s.refreed else s.refreed }

/-- How often the block has been handed to `call_rcu`. -/
def releases (s : Traffic ι) (fb : Addr) : ℕ :=
  (s.waiting.map Prod.fst).count fb + s.freed.count fb

variable [DecidableEq ι]

/-- The thread goes to `p`; outside of a section it is waited for no more. -/
def goto (s : Traffic ι) (i : ι) (p : LifePc) : Traffic ι :=
  { s with
    pc := Function.update s.pc i p
    waiting := if p.inSection then s.waiting else
        s.waiting.map fun x => (x.1, Function.update x.2 i false) }

/-- The next step of a thread that has a block in hand. -/
def go (s : Traffic ι) (i : ι) : Traffic ι :=
  match s.pc i with
  | .found fb =>
    let s' := ((s.touch fb).get fb).goto i (.inside fb)
    if s.st.refcnt fb = 0 then { s' with regained := fb :: s.regained } else s'
  | .inside fb => ((s.touch fb).put fb).goto i .next
  | .mapping name => s.goto i (.indexing (getFblockNamespaceMapping s.st name))
  | .indexing idp =>
    match s.st.fblmap idp with
    | none => s.goto i (.puts [] (.err .EINVAL))
    | some fb => s.goto i (.fetched fb)
  | .fetched fb => ((s.touch fb).get fb).goto i (.test fb)
  | .test fb =>
    match s.st.factory fb with
    | none => (s.touch fb).goto i (.puts [fb] (.err .EINVAL))
    | some _ =>
      if s.st.refcnt fb > 2 then (s.touch fb).goto i (.puts [fb] (.err .EBUSY))
      else (s.touch fb).goto i (.remove fb)
  | .remove fb =>
    { (s.touch fb).goto i (.unname fb) with st := radixTreeDelete s.st (s.st.idp fb) }
  | .unname fb =>
    { (s.touch fb).goto i (.puts [fb, fb] .ok) with
      st := (unregisterFromFblockNamespace s.st (s.st.name fb)).2 }
  | .puts [] _ => s.goto i .idle
  | .puts (fb :: fbs) ret => ((s.touch fb).put fb).goto i (.puts fbs ret)
  | .idle | .next => s

end Traffic

/-- What may happen: a thread takes up a packet, looks up the next block of it, lets a `netfb_rx`
write to the private area of the block, is done with the packet; a thread starts a removal; a thread
goes on; a callback runs. -/
inductive LifeStep (ι : Type*) where
  | packet (i : ι)
  | lookup (i : ι) (idp : Idp)
  | rx (i : ι) (area : Cpu → Priv)
  | done (i : ι)
  | call (i : ι) (name : Name)
  | go (i : ι)
  | callback (n : ℕ)

namespace LifeStep

variable {ι : Type*} [DecidableEq ι]

def exec (s : Traffic ι) : LifeStep ι → Traffic ι
  | .packet i =>
    match s.pc i with
    | .idle => s.goto i .next
    | _ => s
  | .lookup i idp =>
    match s.pc i, s.st.fblmap idp with
    | .next, some fb => s.goto i (.found fb)
    | _, _ => s
  | .rx i area =>
    match s.pc i with
    | .inside fb =>
      { s.touch fb with
        st := { s.st with privateData := Function.update s.st.privateData fb area } }
    | _ => s
  | .done i =>
    match s.pc i with
    | .next => s.goto i .idle
    | _ => s
  | .call i name =>
    match s.pc i with
    | .idle => s.goto i (.mapping name)
    | _ => s
  | .go i => s.go i
  | .callback n =>
    match s.waiting[n]? with
    | none => s
    | some (fb, _) => s.freeFblockRcu n fb

/-- A removal counts a block only if it has not been released, and passes the test only on a block
that is still in `fblmap`. -/
def MayGo (s : Traffic ι) : LifePc → Prop
  | .fetched fb => s.releases fb = 0
  | .test fb => s.st.factory fb ≠ none → s.st.refcnt fb ≤ 2 → s.st.fblmap (s.st.idp fb) = some fb
  | _ => True

/-- A callback runs when no thread it waits for is left. -/
def Possible (s : Traffic ι) : LifeStep ι → Prop
  | .go i => MayGo s (s.pc i)
  | .callback n => ∃ fb w, s.waiting[n]? = some (fb, w) ∧ ∀ i, w i = false
  | .packet _ | .lookup _ _ | .rx _ _ | .done _ | .call _ _ => True

end LifeStep

/-- The system after a schedule. -/
def runTraffic {ι : Type*} [DecidableEq ι] (s₀ : State) (steps : List (LifeStep ι)) : Traffic ι :=
  steps.foldl LifeStep.exec (Traffic.init s₀)

/-! ## Tables and counts -/

/-- The block is in `fblmap` under its idp. -/
def State.Enters (s : State) (b : Addr) : Prop := s.fblmap (s.idp b) = some b

instance State.decidableEnters (s : State) (b : Addr) : Decidable (s.Enters b) :=
  inferInstanceAs (Decidable (s.fblmap (s.idp b) = some b))

/-- A state to start from: blocks are in `fblmap` under their own idp, with a reference. -/
def Started (s₀ : State) : Prop :=
  ∀ idp b, s₀.fblmap idp = some b → s₀.idp b = idp ∧ 1 ≤ s₀.refcnt b

/-- The reference of the tables, once the block has left them. -/
def tableRef (s₀ s : State) (b : Addr) : ℤ := if s₀.Enters b ∧ ¬ s.Enters b then 1 else 0

/-- The references that the threads will put. -/
def owed {ι : Type*} [Fintype ι] (pc : ι → LifePc) (b : Addr) : ℕ :=
  shares (fun p : LifePc => p.refs.count b) pc

/-- The tables only lose entries, and a count is that of the start less the reference of the tables
and with those of the threads.  At most one thread is about to take a block out. -/
structure Counted {ι : Type*} [Fintype ι] (s₀ s : State) (pc : ι → LifePc) : Prop where
  idp : s.idp = s₀.idp
  factory : s.factory = s₀.factory
  entry : ∀ idp b, s.fblmap idp = some b → s₀.fblmap idp = some b
  count : ∀ b, s.refcnt b = s₀.refcnt b - tableRef s₀ s b + owed pc b
  known : ∀ i b, (pc i).seen = some b ∨ b ∈ (pc i).refs → s₀.Enters b
  removing : ∀ i b, pc i = .remove b →
    s.Enters b ∧ s₀.refcnt b = 1 ∧ ∀ j, pc j = .remove b → j = i
  lone : ∀ b, s₀.Enters b → ¬ s.Enters b → s₀.refcnt b = 1

section Counts

variable {ι : Type*} [Fintype ι] {s₀ s : State} {pc : ι → LifePc} {i : ι} {b : Addr}

theorem Started.pos (hr : Started s₀) (hb : s₀.Enters b) : 1 ≤ s₀.refcnt b := (hr _ b hb).2

theorem tableRef_congr {s' : State} (h : s'.Enters b ↔ s.Enters b) :
    tableRef s₀ s' b = tableRef s₀ s b :=
  if_congr (and_congr_right fun _ => not_congr h) rfl rfl

theorem counted_init (s₀ : State) : Counted s₀ s₀ fun _ : ι => .idle where
  idp := rfl
  factory := rfl
  entry := fun _ _ h => h
  count := fun b => by
    simp [tableRef, owed, shares, LifePc.refs]
  known := by
    rintro i b (h | h)
    · cases h
    · cases h
  removing := by
    rintro i b ⟨⟩
  lone := fun b h h' => absurd h h'

theorem owed_update [DecidableEq ι] (pc : ι → LifePc) (i : ι) (p : LifePc) (b : Addr) :
    owed (Function.update pc i p) b + (pc i).refs.count b = owed pc b + p.refs.count b :=
  shares_update (fun p : LifePc => p.refs.count b) pc i p

namespace Counted

theorem enters_start (h : Counted s₀ s pc) (hb : s.Enters b) : s₀.Enters b := by
  unfold State.Enters at hb ⊢
  rw [h.idp] at hb
  exact h.entry _ b hb

theorem enters_of_fblmap (h : Counted s₀ s pc) (hr : Started s₀) {idp : Idp}
    (hb : s.fblmap idp = some b) : s.Enters b := by
  obtain ⟨hidp, -⟩ := hr idp b (h.entry idp b hb)
  unfold State.Enters
  rw [h.idp, hidp]
  exact hb

theorem refcnt_enters (h : Counted s₀ s pc) (hb : s.Enters b) :
    s.refcnt b = s₀.refcnt b + owed pc b := by
  rw [h.count, tableRef, if_neg fun hl => hl.2 hb, sub_zero]

/-- The references of the threads are all counted. -/
theorem owed_le (h : Counted s₀ s pc) (hr : Started s₀) (hb : s₀.Enters b) :
    (owed pc b : ℤ) ≤ s.refcnt b := by
  have hpos := hr.pos hb
  have hlost : tableRef s₀ s b ≤ 1 := by
    unfold tableRef
    split_ifs <;> omega
  rw [h.count]
  omega

theorem pos_of_mem (h : Counted s₀ s pc) (hr : Started s₀) (hb : b ∈ (pc i).refs) :
    1 ≤ s.refcnt b := by
  have hle := h.owed_le hr (h.known i b (.inr hb))
  have hshare : (pc i).refs.count b ≤ owed pc b := share_le (fun p : LifePc => p.refs.count b) pc i
  have hcount := List.count_pos_iff.2 hb
  omega

variable [DecidableEq ι]

/-- A thread with the last reference to a block is the only one with a reference to it, and the
tables have none. -/
theorem last (h : Counted s₀ s pc) (hr : Started s₀) {rest : List Addr}
    (hold : (pc i).refs = b :: rest) (hone : s.refcnt b = 1) :
    (∀ j, j ≠ i → b ∉ (pc j).refs) ∧ b ∉ rest ∧ ¬ s.Enters b := by
  have hmem : b ∈ (pc i).refs := by
    rw [hold]
    exact List.mem_cons_self
  have hb := h.known i b (.inr hmem)
  have howed := h.owed_le hr hb
  have hi : (pc i).refs.count b = rest.count b + 1 := by rw [hold, List.count_cons_self]
  have hle : (pc i).refs.count b ≤ owed pc b := share_le (fun p : LifePc => p.refs.count b) pc i
  refine ⟨fun j hj hmemj => ?_, fun hrest => ?_, fun hent => ?_⟩
  · have htwo : (pc j).refs.count b + (pc i).refs.count b ≤ owed pc b :=
      share_add_le (fun p : LifePc => p.refs.count b) pc hj
    have hcj := List.count_pos_iff.2 hmemj
    omega
  · have hcr := List.count_pos_iff.2 hrest
    omega
  · have hbase := h.refcnt_enters hent
    have hstart := hr.pos hb
    omega

/-- A step that leaves `fblmap` alone: the counts follow the references of the thread. -/
theorem move (h : Counted s₀ s pc) {s' : State} {p : LifePc} (hidp : s'.idp = s.idp)
    (hfac : s'.factory = s.factory) (hmap : s'.fblmap = s.fblmap)
    (hcount : ∀ b, s'.refcnt b + (pc i).refs.count b = s.refcnt b + p.refs.count b)
    (hknown : ∀ b, p.seen = some b ∨ b ∈ p.refs → s₀.Enters b)
    (hrem : ∀ b, p = .remove b → s.Enters b ∧ s₀.refcnt b = 1 ∧ ∀ j, pc j ≠ .remove b) :
    Counted s₀ s' (Function.update pc i p) := by
  have henters : ∀ b, s'.Enters b ↔ s.Enters b := by
    intro b
    unfold State.Enters
    rw [hidp, hmap]
  refine ⟨hidp.trans h.idp, hfac.trans h.factory, fun idp b hb => ?_, fun b => ?_,
    fun j b hj => ?_, fun j b hj => ?_, fun b hb hb' => ?_⟩
  · rw [hmap] at hb
    exact h.entry idp b hb
  · have hlost : tableRef s₀ s' b = tableRef s₀ s b := tableRef_congr (henters b)
    have hold := h.count b
    have hnew := hcount b
    have hshare := owed_update pc i p b
    rw [hlost]
    omega
  · by_cases hji : j = i
    · subst hji
      rw [Function.update_self] at hj
      exact hknown b hj
    · rw [Function.update_of_ne hji] at hj
      exact h.known j b hj
  · rw [henters]
    by_cases hji : j = i
    · subst hji
      rw [Function.update_self] at hj
      obtain ⟨hb, hone, hno⟩ := hrem b hj
      refine ⟨hb, hone, fun k hk => ?_⟩
      by_contra hkj
      rw [Function.update_of_ne hkj] at hk
      exact hno k hk
    · rw [Function.update_of_ne hji] at hj
      obtain ⟨hb, hone, huniq⟩ := h.removing j b hj
      refine ⟨hb, hone, fun k hk => ?_⟩
      by_cases hki : k = i
      · subst hki
        rw [Function.update_self] at hk
        exact absurd hj ((hrem b hk).2.2 j)
      · rw [Function.update_of_ne hki] at hk
        exact huniq k hk
  · rw [henters] at hb'
    exact h.lone b hb hb'

/-- A block is taken out of `fblmap`; its reference goes to the thread. -/
theorem takeOut (h : Counted s₀ s pc) (hi : pc i = .remove b) :
    Counted s₀ (radixTreeDelete s (s.idp b)) (Function.update pc i (.unname b)) := by
  obtain ⟨hb, hone, huniq⟩ := h.removing i b hi
  -- no other block is there under the idp
  have henters : ∀ a, (radixTreeDelete s (s.idp b)).Enters a ↔ s.Enters a ∧ a ≠ b := by
    intro a
    show Function.update s.fblmap (s.idp b) none (s.idp a) = some a ↔ s.fblmap (s.idp a) = some a ∧ _
    by_cases hab : s.idp a = s.idp b
    · rw [hab, Function.update_self]
      refine ⟨nofun, fun ⟨ha, hne⟩ => absurd ?_ hne⟩
      exact (Option.some.inj (hb.symm.trans ha)).symm
    · rw [Function.update_of_ne hab]
      refine ⟨fun ha => ⟨ha, ?_⟩, And.left⟩
      rintro rfl
      exact hab rfl
  refine ⟨h.idp, h.factory, fun idp a ha => ?_, fun a => ?_, fun j a hj => ?_, fun j a hj => ?_,
    fun a ha ha' => ?_⟩
  · by_cases hidp : idp = s.idp b
    · subst hidp
      have ha' : Function.update s.fblmap (s.idp b) none (s.idp b) = some a := ha
      rw [Function.update_self] at ha'
      cases ha'
    · exact h.entry idp a ((Function.update_of_ne hidp ..).symm.trans ha)
  · have hold := h.count a
    have hshare := owed_update pc i (.unname b) a
    rw [hi] at hshare
    show s.refcnt a = _
    by_cases hab : a = b
    · subst hab
      have hlost : tableRef s₀ s a = 0 := if_neg fun hl => hl.2 hb
      have hlost' : tableRef s₀ (radixTreeDelete s (s.idp a)) a = 1 :=
        if_pos ⟨h.enters_start hb, fun hl => ((henters a).1 hl).2 rfl⟩
      simp only [LifePc.refs, List.count_cons_self, List.count_nil] at hshare
      rw [hlost']
      rw [hlost] at hold
      omega
    · have hlost : tableRef s₀ (radixTreeDelete s (s.idp b)) a = tableRef s₀ s a :=
        tableRef_congr ((henters a).trans (and_iff_left hab))
      have hne : b ≠ a := fun e => hab e.symm
      simp only [LifePc.refs, List.count_cons_of_ne hne, List.count_nil] at hshare
      rw [hlost]
      omega
  · by_cases hji : j = i
    · subst hji
      rw [Function.update_self] at hj
      have hmem : a = b := by
        rcases hj with hj | hj
        · cases hj
        · simpa [LifePc.refs] using hj
      exact hmem ▸ h.enters_start hb
    · rw [Function.update_of_ne hji] at hj
      exact h.known j a hj
  · by_cases hji : j = i
    · subst hji
      rw [Function.update_self] at hj
      cases hj
    · rw [Function.update_of_ne hji] at hj
      obtain ⟨ha, hone', huniq'⟩ := h.removing j a hj
      have hab : a ≠ b := by
        rintro rfl
        exact hji (huniq j hj)
      refine ⟨(henters a).2 ⟨ha, hab⟩, hone', fun k hk => ?_⟩
      by_cases hki : k = i
      · subst hki
        rw [Function.update_self] at hk
        cases hk
      · rw [Function.update_of_ne hki] at hk
        exact huniq' k hk
  · by_cases hab : a = b
    · exact hab ▸ hone
    · exact h.lone a ha fun hl => ha' ((henters a).2 ⟨hl, hab⟩)

/-- Only one thread can pass the test on a block that is still in the tables. -/
theorem passes (h : Counted s₀ s pc) (hr : Started s₀) (hi : pc i = .test b) (hb : s.Enters b)
    (hcnt : s.refcnt b ≤ 2) : s₀.refcnt b = 1 ∧ ∀ j, pc j ≠ .remove b := by
  have hpos := hr.pos (h.enters_start hb)
  have hcount := h.refcnt_enters hb
  have hshare : (pc i).refs.count b ≤ owed pc b := share_le (fun p : LifePc => p.refs.count b) pc i
  rw [hi] at hshare
  simp only [LifePc.refs, List.count_cons_self, List.count_nil] at hshare
  refine ⟨by omega, fun j hj => ?_⟩
  have hne : i ≠ j := by
    rintro rfl
    rw [hi] at hj
    cases hj
  have htwo : (pc i).refs.count b + (pc j).refs.count b ≤ owed pc b :=
    share_add_le (fun p : LifePc => p.refs.count b) pc hne
  rw [hi, hj] at htwo
  simp only [LifePc.refs, List.count_cons_self, List.count_nil] at htwo
  omega

end Counted

end Counts

end Lana
