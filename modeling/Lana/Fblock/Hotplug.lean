import Mathlib.Data.List.Sort
import Lana.Fblock.Ports
import Lana.Library.Transition

/-!
# Ports and CPU hotplug

A block has its ports once per CPU, and an event works on the CPUs that are online.  Seen from
outside a block has one set of ports, on which an event works as a whole (`PortHistory`).  The
copies of the online CPUs are that set as long as each CPU comes back to the ports it was left with:
nobody brings the copy of a CPU up to date when it comes online, so the copies agree all along
exactly under this condition (`copies_agree_iff`).  While they agree, an event that is refused has
changed nothing (`refused_unchanged`).
-/

namespace Lana

/-! ## CPUs -/

namespace OnlineCpus

variable (o : OnlineCpus) (c : Cpu)

/-- A CPU goes offline; the last one cannot. -/
def remove : OnlineCpus :=
  if h : o.cpus.erase c ≠ [] then ⟨o.cpus.erase c, o.nodup.erase c, h⟩ else o

/-- A CPU comes online; `for_each_online_cpu` goes by the numbers of the CPUs. -/
def add : OnlineCpus :=
  if h : c ∈ o.cpus then o
  else
    ⟨o.cpus.orderedInsert (· ≤ ·) c,
      (List.perm_orderedInsert _ c o.cpus).nodup_iff.2 (List.nodup_cons.2 ⟨h, o.nodup⟩),
      List.ne_nil_of_mem ((List.mem_orderedInsert _).2 (.inl rfl))⟩

variable {o c} {d : Cpu}

theorem mem_of_mem_remove (h : d ∈ (o.remove c).cpus) : d ∈ o.cpus := by
  unfold remove at h
  split_ifs at h
  · exact List.mem_of_mem_erase h
  · exact h

/-- Only the CPU itself can leave. -/
theorem mem_remove_of_ne (h : d ∈ o.cpus) (hd : d ≠ c) : d ∈ (o.remove c).cpus := by
  unfold remove
  split_ifs
  · exact (List.mem_erase_of_ne hd).2 h
  · exact h

theorem mem_add : d ∈ (o.add c).cpus ↔ d = c ∨ d ∈ o.cpus := by
  unfold add
  split_ifs with h
  · exact ⟨.inr, fun hd => hd.elim (fun e => e ▸ h) id⟩
  · exact List.mem_orderedInsert _

theorem add_of_mem (h : c ∈ o.cpus) : o.add c = o := dif_pos h

end OnlineCpus

/-! ## The copies -/

/-- What happens to a block: an event, or a CPU goes offline or comes online. -/
inductive CpuAct where
  | event (ev : BindEvent)
  | offline (c : Cpu)
  | online (c : Cpu)

/-- The private areas of a block and the CPUs that are online. -/
structure Percpu where
  online : OnlineCpus
  area : Cpu → Priv

namespace Percpu

/-- A block just constructed: the areas of the online CPUs are initialised, the others are as
`alloc_percpu` cleared them. -/
def new (online : OnlineCpus) (dev sockSelf : ℕ) : Percpu :=
  ⟨online, fun c => if c ∈ online.cpus then Priv.init dev sockSelf else Priv.init 0 0⟩

theorem ports_new (online : OnlineCpus) (dev sockSelf : ℕ) (c : Cpu) :
    ((new online dev sockSelf).area c).ports = Ports.free := by
  show (if c ∈ online.cpus then Priv.init dev sockSelf else Priv.init 0 0).ports = Ports.free
  split_ifs <;> rfl

/-- The `event_rx` of a block of type `t`. -/
def deliver (t : FbType) (s : Percpu) (ev : BindEvent) : Notify × Percpu :=
  let r := t.event ev.event s.online.cpus s.area
  (r.1, { s with area := r.2 })

def step (t : FbType) (s : Percpu) : CpuAct → Percpu
  | .event ev => (s.deliver t ev).2
  | .offline c => { s with online := s.online.remove c }
  | .online c => { s with online := s.online.add c }

/-- The online CPUs hold the same ports. -/
def Agree (s : Percpu) : Prop :=
  ∀ c ∈ s.online.cpus, ∀ d ∈ s.online.cpus, (s.area c).ports = (s.area d).ports

end Percpu

/-! ## One set of ports -/

/-- A block with one set of ports, and the ports each offline CPU was left with. -/
structure PortHistory where
  online : OnlineCpus
  ports : Ports
  left : Cpu → Ports

namespace PortHistory

def new (online : OnlineCpus) : PortHistory := ⟨online, Ports.free, fun _ => Ports.free⟩

def step (t : FbType) (h : PortHistory) : CpuAct → PortHistory
  | .event ev => { h with ports := (ev.onPorts t h.ports).getD h.ports }
  | .offline c =>
    { h with
      online := h.online.remove c
      left := if c ∈ h.online.cpus then Function.update h.left c h.ports else h.left }
  | .online c => { h with online := h.online.add c }

/-- A CPU comes online with the ports it was left with. -/
def Ok (h : PortHistory) : CpuAct → Prop
  | .online c => c ∈ h.online.cpus ∨ h.left c = h.ports
  | _ => True

end PortHistory

/-! ## Agreement -/

section Agreement

variable {t : FbType} {s : Percpu} {h : PortHistory}

/-- The copies stand for the one set of ports, as long as they agree. -/
structure Shadows (s : Percpu) (h : PortHistory) : Prop where
  online : h.online = s.online
  offline : ∀ c, c ∉ s.online.cpus → (s.area c).ports = h.left c
  current : s.Agree → ∀ c ∈ s.online.cpus, (s.area c).ports = h.ports

/-- What an event does to copies that agree. -/
theorem deliver_cases (t : FbType) (ev : BindEvent) {P : Ports}
    (hP : ∀ c ∈ s.online.cpus, (s.area c).ports = P) :
    (ev.onPorts t P = none ∧ s.deliver t ev = (.bad, s)) ∨
      ∃ Q area, ev.onPorts t P = some Q ∧ s.deliver t ev = (.ok, { s with area := area }) ∧
        (∀ c ∈ s.online.cpus, (area c).ports = Q) ∧ ∀ c ∉ s.online.cpus, area c = s.area c := by
  unfold Percpu.deliver
  rcases event_cases t ev s.online hP with ⟨hg, heq⟩ | ⟨Q, area, hg, heq, hin, hout⟩
  · exact .inl ⟨hg, by rw [heq]⟩
  · exact .inr ⟨Q, area, hg, by rw [heq], fun c hc => (hin c hc).1, hout⟩

/-- While the copies agree, an event that is refused has changed nothing. -/
theorem refused_unchanged (hs : s.Agree) {ev : BindEvent} (hbad : (s.deliver t ev).1 = .bad) :
    (s.deliver t ev).2 = s := by
  obtain ⟨c, cs, hcs⟩ := List.exists_cons_of_ne_nil s.online.nonempty
  have hc : c ∈ s.online.cpus := hcs ▸ List.mem_cons_self
  rcases deliver_cases t ev (P := (s.area c).ports) (fun d hd => hs d hd c hc) with
    ⟨-, heq⟩ | ⟨Q, area, -, heq, -⟩
  · rw [heq]
  · rw [heq] at hbad
    cases hbad

theorem agree_of_ports {P : Ports} (hP : ∀ c ∈ s.online.cpus, (s.area c).ports = P) : s.Agree :=
  fun c hc d hd => (hP c hc).trans (hP d hd).symm

theorem shadows_event (hR : Shadows s h) (hs : s.Agree) (ev : BindEvent) :
    Shadows (s.step t (.event ev)) (h.step t (.event ev)) ∧ (s.step t (.event ev)).Agree := by
  have hP := hR.current hs
  show Shadows (s.deliver t ev).2 _ ∧ (s.deliver t ev).2.Agree
  rcases deliver_cases t ev hP with ⟨hg, heq⟩ | ⟨Q, area, hg, heq, hin, hout⟩
  · have hsame : h.step t (.event ev) = h := by
      show { h with ports := (ev.onPorts t h.ports).getD h.ports } = h
      rw [hg]
      rfl
    rw [heq, hsame]
    exact ⟨hR, hs⟩
  · have hports : (h.step t (.event ev)).ports = Q := by
      show (ev.onPorts t h.ports).getD h.ports = Q
      rw [hg]
      rfl
    rw [heq]
    refine ⟨⟨hR.online, fun c hc => ?_, fun _ c hc => ?_⟩, agree_of_ports hin⟩
    · show (area c).ports = h.left c
      rw [hout c hc]
      exact hR.offline c hc
    · rw [hports]
      exact hin c hc

theorem shadows_offline (hR : Shadows s h) (hs : s.Agree) (c : Cpu) :
    Shadows (s.step t (.offline c)) (h.step t (.offline c)) ∧ (s.step t (.offline c)).Agree := by
  have hP : ∀ d ∈ (s.online.remove c).cpus, (s.area d).ports = h.ports :=
    fun d hd => hR.current hs d (OnlineCpus.mem_of_mem_remove hd)
  refine ⟨⟨congrArg (·.remove c) hR.online, fun d hd => ?_, fun _ => hP⟩, agree_of_ports hP⟩
  show (s.area d).ports = (if c ∈ h.online.cpus then Function.update h.left c h.ports else h.left) d
  rw [hR.online]
  by_cases hdc : d = c
  · subst hdc
    split_ifs with hd'
    · rw [Function.update_self]
      exact hR.current hs d hd'
    · exact hR.offline d hd'
  · -- another CPU that is offline now was offline before
    have hd' : d ∉ s.online.cpus := fun hmem => hd (OnlineCpus.mem_remove_of_ne hmem hdc)
    rw [hR.offline d hd']
    split_ifs
    · rw [Function.update_of_ne hdc]
    · rfl

theorem shadows_online (hR : Shadows s h) (hs : s.Agree) (c : Cpu) :
    Shadows (s.step t (.online c)) (h.step t (.online c)) ∧
      ((s.step t (.online c)).Agree ↔ h.Ok (.online c)) := by
  have hP := hR.current hs
  have hmem : ∀ d, d ∈ (s.online.add c).cpus ↔ d = c ∨ d ∈ s.online.cpus :=
    fun d => OnlineCpus.mem_add
  by_cases hc : c ∈ s.online.cpus
  · -- the CPU is online already
    have hadd : s.online.add c = s.online := OnlineCpus.add_of_mem hc
    have hs' : s.step t (.online c) = s := by
      show { s with online := s.online.add c } = s
      rw [hadd]
    have hh' : h.step t (.online c) = h := by
      show { h with online := h.online.add c } = h
      rw [hR.online, hadd, ← hR.online]
    rw [hs', hh']
    exact ⟨hR, iff_of_true hs (.inl (hR.online ▸ hc))⟩
  · have hoff := hR.offline c hc
    obtain ⟨d, ds, hds⟩ := List.exists_cons_of_ne_nil s.online.nonempty
    have hd : d ∈ s.online.cpus := hds ▸ List.mem_cons_self
    -- a CPU that was online holds the current ports, and so must the new one
    have hiff : (s.step t (.online c)).Agree ↔ h.left c = h.ports := by
      constructor
      · intro hagree
        rw [← hoff, ← hP d hd]
        exact hagree c ((hmem c).2 (.inl rfl)) d ((hmem d).2 (.inr hd))
      · intro hleft
        refine agree_of_ports (P := h.ports) fun e he => ?_
        rcases (hmem e).1 he with rfl | he
        · exact hoff.trans hleft
        · exact hP e he
    refine ⟨⟨congrArg (·.add c) hR.online, fun e he => ?_, fun hagree e he => ?_⟩, ?_⟩
    · exact hR.offline e fun he' => he ((hmem e).2 (.inr he'))
    · rcases (hmem e).1 he with rfl | he
      · exact hoff.trans (hiff.1 hagree)
      · exact hP e he
    · rw [hiff]
      exact ⟨.inr, fun hok => hok.resolve_left fun hc' => hc (hR.online ▸ hc')⟩

theorem shadows_step (hR : Shadows s h) (hs : s.Agree) (a : CpuAct) :
    Shadows (s.step t a) (h.step t a) ∧ ((s.step t a).Agree ↔ h.Ok a) := by
  cases a with
  | event ev =>
    obtain ⟨hR', hs'⟩ := shadows_event hR hs ev
    exact ⟨hR', iff_of_true hs' trivial⟩
  | offline c =>
    obtain ⟨hR', hs'⟩ := shadows_offline hR hs c
    exact ⟨hR', iff_of_true hs' trivial⟩
  | online c => exact shadows_online hR hs c

end Agreement

/-- **Hotplug.** The online CPUs hold the same ports all along, and a refused event changes none,
exactly if every CPU that comes online finds the ports as they were when it left; a CPU that was
never online finds none bound. -/
theorem copies_agree_iff (t : FbType) (online : OnlineCpus) (dev sockSelf : ℕ) (as : List CpuAct) :
    (∀ bs, bs <+: as → (bs.foldl (Percpu.step t) (.new online dev sockSelf)).Agree ∧
        ∀ ev, bs ++ [.event ev] <+: as →
          ((bs.foldl (Percpu.step t) (.new online dev sockSelf)).deliver t ev).1 = .bad →
          ((bs.foldl (Percpu.step t) (.new online dev sockSelf)).deliver t ev).2 =
            bs.foldl (Percpu.step t) (.new online dev sockSelf)) ↔
      Transition.Allowed (PortHistory.step t) PortHistory.Ok (.new online) as := by
  have hnew := Percpu.ports_new online dev sockSelf
  have hstart : (Percpu.new online dev sockSelf).Agree := agree_of_ports fun c _ => hnew c
  have hR : Shadows (.new online dev sockSelf) (.new online) :=
    ⟨rfl, fun c _ => hnew c, fun _ c _ => hnew c⟩
  rw [Transition.allowed_iff_forall_prefix_sim (R := Shadows) (M := Percpu.Agree)
    (fun _ _ a hR hs => shadows_step hR hs a) hR hstart]
  exact ⟨fun h bs hbs => (h bs hbs).1,
    fun h bs hbs => ⟨h bs hbs, fun _ _ hbad => refused_unchanged (h bs hbs) hbad⟩⟩

/-- A port is bound while CPU 1 is away: back online, CPU 1 has the port free, and taking the
binding back clears the port of CPU 0 before CPU 1 refuses. -/
theorem copies_diverge :
    let s := [CpuAct.offline 1, .event (.bind .egress 5), .online 1].foldl (Percpu.step .dummy)
      (.new ⟨[0, 1], by decide, by decide⟩ 0 0)
    let r := s.deliver .dummy (.unbind .egress 5)
    ¬ s.Agree ∧ r.1 = .bad ∧ (s.area 0).ports.port .egress = 5 ∧
      (r.2.area 0).ports.port .egress = idpUnknown := by
  refine ⟨fun hagree => ?_, by decide, by decide, by decide⟩
  have h := congrArg (fun P : Ports => P.port .egress) (hagree 0 (by decide) 1 (by decide))
  exact absurd h (by decide)

end Lana
