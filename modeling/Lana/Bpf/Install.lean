import Lana.Bpf.Text

/-!
# Installing a filter

`fb_bpf_proc_write` on the blocks: the text is parsed, the old filters are taken off every online
CPU, and the new one is built and installed on one CPU after the other.  What can fail on a CPU
fails after the old filters are gone; the function then takes off what it has installed and returns
the number of bytes written all the same.  So a write is all or nothing exactly if no program that
gets this far is refused by `sk_chk_filter` or runs out of memory (`write_all_or_nothing_iff`);
after one that is, every online CPU is without a filter (`filter_install_failed`).
-/

namespace Lana

namespace Bpf

open Scan

/-! ## The write -/

def enomem : ℤ := 12
def efault : ℤ := 14
def einval : ℤ := 22

/-- `MAX_BUFF_SIZ`. -/
def maxBuffSiz : ℕ := 16384

/-- What a write finds in the kernel. -/
structure WriteEnv where
  /-- the three `kmalloc`s of `fb_bpf_proc_write` -/
  code : Bool
  fp : Bool
  filter : Bool
  /-- whether `copy_from_user` copies all -/
  copyFromUser : Bool
  /-- the memory behind `code` -/
  behind : List UInt8
  /-- `sk_chk_filter`; a program of the model also stands for what the function makes of it, which
  replaces the opcodes by its own in place -/
  skChkFilter : List SockFilter → ℤ
  /-- `kmalloc_node` on the node of a CPU -/
  kmallocNode : Cpu → Bool

/-- `fb_bpf_proc_write` up to the parsed program, or the error it returns; `none` when the parser
runs off the memory. -/
def readProgram (env : WriteEnv) (ubuff : List UInt8) : Option (Except ℤ (List SockFilter)) :=
  if ubuff.length > maxBuffSiz then some (.error (-einval))
  else if !env.code || !env.fp || !env.filter then some (.error (-enomem))
  else if !env.copyFromUser then some (.error (-efault))
  else
    match (parse (ubuff ++ env.behind) ubuff.length).result with
    | none => none
    | some (filter, _) =>
      if filter.length = maxInstrSiz then some (.error (-enomem)) else some (.ok filter)

/-- `fb_bpf_init_filter`; `fprog->filter` is never `NULL` here. -/
def fbBpfInitFilter (env : WriteEnv) (prog : List SockFilter) (cpu : Cpu) (priv : Priv) : ℤ × Priv :=
  if !env.kmallocNode cpu then (-enomem, priv)
  else if env.skChkFilter prog ≠ 0 then (env.skChkFilter prog, priv)
  else (0, { priv with filter := some prog })

/-- The loop over the CPUs, up to the first one that fails. -/
def initFilterLoop (env : WriteEnv) (prog : List SockFilter) :
    List Cpu → (Cpu → Priv) → ℤ × (Cpu → Priv)
  | [], priv => (0, priv)
  | cpu :: cpus, priv =>
    let r := fbBpfInitFilter env prog cpu (priv cpu)
    if r.1 ≠ 0 then (r.1, priv)
    else initFilterLoop env prog cpus (Function.update priv cpu r.2)

/-- `fb_bpf_init_filter_cpus`. -/
def fbBpfInitFilterCpus (env : WriteEnv) (s : State) (fb : Addr) (prog : List SockFilter) :
    ℤ × State :=
  let r := initFilterLoop env prog s.online.cpus (s.privateData fb)
  (r.1, { s with privateData := Function.update s.privateData fb r.2 })

/-- `fb_bpf_proc_write` from the parsed program on. -/
def install (env : WriteEnv) (s : State) (fb : Addr) (prog : List SockFilter) : State :=
  let s := fbBpfCleanupFilterCpus s fb
  let r := fbBpfInitFilterCpus env s fb prog
  if r.1 = 0 then r.2 else fbBpfCleanupFilterCpus r.2 fb

/-- `fb_bpf_proc_write`; the outcome of the installation does not reach the return value. -/
def fbBpfProcWrite (env : WriteEnv) (s : State) (fb : Addr) (ubuff : List UInt8) :
    Option (ℤ × State) :=
  match readProgram env ubuff with
  | none => none
  | some (.error e) => some (e, s)
  | some (.ok prog) => some (ubuff.length, install env s fb prog)

/-! ## The CPUs -/

/-- The program passes the check, and there is memory for it on every CPU. -/
def Installable (env : WriteEnv) (cpus : List Cpu) (prog : List SockFilter) : Prop :=
  env.skChkFilter prog = 0 ∧ ∀ c ∈ cpus, env.kmallocNode c = true

section Cpus

variable {env : WriteEnv} {prog : List SockFilter} {cpus : List Cpu}

theorem fbBpfInitFilter_eq_zero_iff (cpu : Cpu) (priv : Priv) :
    (fbBpfInitFilter env prog cpu priv).1 = 0 ↔
      env.kmallocNode cpu = true ∧ env.skChkFilter prog = 0 := by
  unfold fbBpfInitFilter
  split_ifs with hmem hchk
  · simp_all [enomem]
  · simp_all
  · simp_all

theorem fbBpfInitFilter_of_ok {cpu : Cpu} (hmem : env.kmallocNode cpu = true)
    (hchk : env.skChkFilter prog = 0) (priv : Priv) :
    fbBpfInitFilter env prog cpu priv = (0, { priv with filter := some prog }) := by
  unfold fbBpfInitFilter
  rw [if_neg (by simp [hmem]), if_neg (not_not.2 hchk)]

/-- The loop ends with 0 exactly if no CPU fails. -/
theorem initFilterLoop_eq_zero_iff (hne : cpus ≠ []) (priv : Cpu → Priv) :
    (initFilterLoop env prog cpus priv).1 = 0 ↔ Installable env cpus prog := by
  induction cpus generalizing priv with
  | nil => exact absurd rfl hne
  | cons cpu cpus ih =>
    have hcpu : (fbBpfInitFilter env prog cpu (priv cpu)).1 = 0 ↔ _ :=
      fbBpfInitFilter_eq_zero_iff cpu (priv cpu)
    unfold Installable
    rw [List.forall_mem_cons, initFilterLoop]
    by_cases hok : (fbBpfInitFilter env prog cpu (priv cpu)).1 = 0
    · rw [if_neg (not_not.2 hok)]
      obtain ⟨hmem, hchk⟩ := hcpu.1 hok
      cases cpus with
      | nil => simp [initFilterLoop, hmem, hchk]
      | cons c cs =>
        rw [ih (List.cons_ne_nil c cs)]
        simp [Installable, hmem]
    · rw [if_pos hok]
      refine iff_of_false hok fun h => hok (hcpu.2 ⟨h.2.1, h.1⟩)

/-- Where no CPU fails, every CPU gets the program. -/
theorem filter_initFilterLoop (h : Installable env cpus prog) (priv : Cpu → Priv) :
    ∀ c, ((initFilterLoop env prog cpus priv).2 c).filter =
      if c ∈ cpus then some prog else (priv c).filter := by
  induction cpus generalizing priv with
  | nil => exact fun _ => rfl
  | cons cpu cpus ih =>
    intro c
    obtain ⟨hmem, hmems⟩ := List.forall_mem_cons.1 h.2
    rw [initFilterLoop, fbBpfInitFilter_of_ok hmem h.1, if_neg (not_not.2 rfl),
      ih ⟨h.1, hmems⟩]
    by_cases hc : c = cpu
    · subst hc
      simp
    · simp [hc]

end Cpus

/-! ## All or nothing -/

section Install

variable {env : WriteEnv} {s : State} {fb : Addr} {prog : List SockFilter}

theorem filter_cleanup (s : State) (fb : Addr) (c : Cpu) :
    ((fbBpfCleanupFilterCpus s fb).privateData fb c).filter =
      if c ∈ s.online.cpus then none else (s.privateData fb c).filter := by
  show (Function.update s.privateData fb _ fb c).filter = _
  rw [Function.update_self]
  split_ifs <;> rfl

/-- A program that passes everywhere runs on every online CPU. -/
theorem filter_install (h : Installable env s.online.cpus prog) {c : Cpu}
    (hc : c ∈ s.online.cpus) : ((install env s fb prog).privateData fb c).filter = some prog := by
  have hzero : (fbBpfInitFilterCpus env (fbBpfCleanupFilterCpus s fb) fb prog).1 = 0 :=
    (initFilterLoop_eq_zero_iff s.online.nonempty _).2 h
  unfold install
  rw [if_pos hzero]
  show (Function.update (fbBpfCleanupFilterCpus s fb).privateData fb
    (initFilterLoop env prog s.online.cpus _).2 fb c).filter = _
  rw [Function.update_self, filter_initFilterLoop h, if_pos hc]

/-- A program that fails somewhere leaves every online CPU without a filter. -/
theorem filter_install_failed (h : ¬ Installable env s.online.cpus prog) {c : Cpu}
    (hc : c ∈ s.online.cpus) : ((install env s fb prog).privateData fb c).filter = none := by
  have hne : (fbBpfInitFilterCpus env (fbBpfCleanupFilterCpus s fb) fb prog).1 ≠ 0 :=
    mt (initFilterLoop_eq_zero_iff s.online.nonempty _).1 h
  unfold install
  rw [if_neg hne, filter_cleanup]
  exact if_pos hc

end Install

/-! ## The outcome -/

/-- The program that was parsed runs on every online CPU and the write reports success, or every CPU
has the filter it had and the write reports an error. -/
def AllOrNothing (env : WriteEnv) (s : State) (fb : Addr) (ubuff : List UInt8) (r : ℤ × State) :
    Prop :=
  (0 ≤ r.1 ∧ ∃ prog, readProgram env ubuff = some (.ok prog) ∧
      ∀ c ∈ s.online.cpus, (r.2.privateData fb c).filter = some prog) ∨
    (r.1 < 0 ∧ ∀ c, (r.2.privateData fb c).filter = (s.privateData fb c).filter)

/-- The errors before the installation are negative. -/
theorem readProgram_error {env : WriteEnv} {ubuff : List UInt8} {e : ℤ}
    (h : readProgram env ubuff = some (.error e)) : e < 0 := by
  unfold readProgram at h
  split_ifs at h
  · cases h; decide
  · cases h; decide
  · cases h; decide
  · split at h
    · cases h
    · split_ifs at h
      · cases h; decide
      · cases h

/-- **Installation.** A write is all or nothing exactly if the program it has parsed, if it gets
that far, passes the check and finds memory on every online CPU. -/
theorem write_all_or_nothing_iff (env : WriteEnv) (s : State) (fb : Addr) (ubuff : List UInt8)
    (r : ℤ × State) (h : fbBpfProcWrite env s fb ubuff = some r) :
    AllOrNothing env s fb ubuff r ↔
      ∀ prog, readProgram env ubuff = some (.ok prog) → Installable env s.online.cpus prog := by
  unfold AllOrNothing
  unfold fbBpfProcWrite at h
  rcases hread : readProgram env ubuff with _ | (e | prog)
  · rw [hread] at h
    cases h
  · -- nothing has been touched
    rw [hread] at h
    cases h
    refine iff_of_true (.inr ⟨readProgram_error hread, fun _ => rfl⟩) fun prog hp => ?_
    cases hp
  · rw [hread] at h
    cases h
    have hret : ¬ (ubuff.length : ℤ) < 0 := not_lt.2 (Int.natCast_nonneg _)
    constructor
    · rintro (⟨-, prog', hp, hall⟩ | ⟨hneg, -⟩) prog'' hp''
      · cases hp
        cases hp''
        -- after a failure the first online CPU would have no filter
        by_contra hfail
        obtain ⟨c, cs, hcs⟩ := List.exists_cons_of_ne_nil s.online.nonempty
        have hc : c ∈ s.online.cpus := hcs ▸ List.mem_cons_self
        have := hall c hc
        rw [filter_install_failed hfail hc] at this
        cases this
      · exact absurd hneg hret
    · intro hinst
      exact .inl ⟨not_lt.1 hret, prog, rfl, fun c hc => filter_install (hinst prog rfl) hc⟩

/-- A kernel with memory whose `sk_chk_filter` returns `ret`, and a zero behind a buffer. -/
def answering (ret : ℤ) : WriteEnv where
  code := true
  fp := true
  filter := true
  copyFromUser := true
  behind := [0]
  skChkFilter _ := ret
  kmallocNode _ := true

/-- Two CPUs, and a filter that passes. -/
theorem write_all_or_nothing_pass :
    AllOrNothing (answering 0) (.init ⟨[0, 1], by decide, by decide⟩) 0
      (showInstrs [⟨6, 0, 0, 65535⟩])
      (22, install (answering 0) (.init ⟨[0, 1], by decide, by decide⟩) 0 [⟨6, 0, 0, 65535⟩]) :=
  (write_all_or_nothing_iff _ _ _ _ _ rfl).2 fun _ _ => ⟨rfl, fun _ _ => rfl⟩

/-- A block with a filter that drops everything, and another program that is refused: the write
returns its 22 bytes, and the block has no filter any more. -/
theorem write_refused_lost :
    let s := install (answering 0) (.init ⟨[0], by decide, by decide⟩) 0 [⟨6, 0, 0, 0⟩]
    let r := (22, install (answering (-einval)) s 0 [⟨6, 0, 0, 65535⟩])
    fbBpfProcWrite (answering (-einval)) s 0 (showInstrs [⟨6, 0, 0, 65535⟩]) = some r ∧
      (s.privateData 0 0).filter = some [⟨6, 0, 0, 0⟩] ∧ (r.2.privateData 0 0).filter = none ∧
      ¬ AllOrNothing (answering (-einval)) s 0 (showInstrs [⟨6, 0, 0, 65535⟩]) r := by
  refine ⟨rfl, rfl, rfl, ?_⟩
  rintro (⟨-, prog, -, hall⟩ | ⟨hneg, -⟩)
  · exact absurd (hall 0 (by decide)) nofun
  · exact absurd hneg (by decide)

end Bpf

end Lana
