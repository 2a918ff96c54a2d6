import Lana.Fblock.Frame

/-!
# Ports

The ports of a block exist once per CPU.  `Copies s P` says that all online CPUs agree on `P`; on
such a state an event either is refused and changes nothing, or gives every CPU the same new ports
(`eventRx_cases`).  `Ports.bind` and `Ports.unbind` are the events on the one
copy.
-/

namespace Lana

open State

/-- The ports of a block; `clone` is used by the tee only. -/
@[ext]
structure Ports where
  port : PathType → Idp
  clone : Idp

namespace Ports

/-- No port is bound. -/
def free : Ports := ⟨fun _ => idpUnknown, idpUnknown⟩

/-- The ports with `port[dir] = idp`. -/
def set (p : Ports) (dir : PathType) (idp : Idp) : Ports :=
  { p with port := Function.update p.port dir idp }

@[simp] theorem set_self (p : Ports) (dir : PathType) (idp : Idp) :
    (p.set dir idp).port dir = idp := Function.update_self ..

@[simp] theorem set_flip (p : Ports) (dir : PathType) (idp : Idp) :
    (p.set dir idp).port dir.flip = p.port dir.flip := by
  cases dir <;> rfl

@[simp] theorem set_clone (p : Ports) (dir : PathType) (idp : Idp) :
    (p.set dir idp).clone = p.clone := rfl

theorem set_set (p : Ports) (dir : PathType) (i j : Idp) : (p.set dir i).set dir j = p.set dir j := by
  unfold set
  rw [Function.update_idem]

theorem set_port (p : Ports) (dir : PathType) : p.set dir (p.port dir) = p := by
  unfold set
  rw [Function.update_eq_self]

/-- `FBLOCK_BIND_IDP` on the ports of a block of the given type. -/
def bind (t : FbType) (dir : PathType) (idp : Idp) (p : Ports) : Option Ports :=
  if p.port dir = idpUnknown then some (p.set dir idp)
  else if t = .tee ∧ p.clone = idpUnknown then some { p with clone := idp } else none

/-- `FBLOCK_UNBIND_IDP` on the ports of a block of the given type. -/
def unbind (t : FbType) (dir : PathType) (idp : Idp) (p : Ports) : Option Ports :=
  if p.port dir = idp then some (p.set dir idpUnknown)
  else if t = .tee ∧ p.clone = idp then some { p with clone := idpUnknown } else none

section Events

variable {t : FbType} {dir : PathType} {idp : Idp} {p q : Ports}

theorem bind_of_free (h : p.port dir = idpUnknown) (t : FbType) (idp : Idp) :
    p.bind t dir idp = some (p.set dir idp) := if_pos h

theorem bind_of_clone (h : p.port dir ≠ idpUnknown) (ht : t = .tee) (hc : p.clone = idpUnknown)
    (idp : Idp) : p.bind t dir idp = some { p with clone := idp } :=
  (if_neg h).trans (if_pos ⟨ht, hc⟩)

/-- The slot that a binding has filled. -/
theorem bind_cases (h : p.bind t dir idp = some q) :
    p.port dir = idpUnknown ∧ q = p.set dir idp ∨
      p.port dir ≠ idpUnknown ∧ t = .tee ∧ p.clone = idpUnknown ∧ q = { p with clone := idp } := by
  unfold bind at h
  split_ifs at h with h1 h2
  · exact .inl ⟨h1, (Option.some.inj h).symm⟩
  · exact .inr ⟨h1, h2.1, h2.2, (Option.some.inj h).symm⟩

theorem unbind_of_port (h : p.port dir = idp) (t : FbType) :
    p.unbind t dir idp = some (p.set dir idpUnknown) := if_pos h

theorem unbind_of_clone (h : p.port dir ≠ idp) (ht : t = .tee) (hc : p.clone = idp) :
    p.unbind t dir idp = some { p with clone := idpUnknown } :=
  (if_neg h).trans (if_pos ⟨ht, hc⟩)

/-- The slot that an unbinding has cleared. -/
theorem unbind_cases (h : p.unbind t dir idp = some q) :
    p.port dir = idp ∧ q = p.set dir idpUnknown ∨
      p.port dir ≠ idp ∧ t = .tee ∧ p.clone = idp ∧ q = { p with clone := idpUnknown } := by
  unfold unbind at h
  split_ifs at h with h1 h2
  · exact .inl ⟨h1, (Option.some.inj h).symm⟩
  · exact .inr ⟨h1, h2.1, h2.2, (Option.some.inj h).symm⟩

end Events

/-- 1 for a port in use. -/
def used (i : Idp) : ℕ := if i = idpUnknown then 0 else 1

@[simp] theorem used_unknown : used idpUnknown = 0 := rfl

theorem used_of_ne {i : Idp} (h : i ≠ idpUnknown) : used i = 1 := if_neg h

/-- The number of ports in use. -/
def count (p : Ports) : ℕ := used (p.port .ingress) + used (p.port .egress) + used p.clone

theorem count_free : free.count = 0 := rfl

theorem count_set (p : Ports) (dir : PathType) (idp : Idp) :
    (p.set dir idp).count + used (p.port dir) = p.count + used idp := by
  cases dir
  · show used idp + used (p.port .egress) + used p.clone + used (p.port .ingress) = _
    unfold count
    omega
  · show used (p.port .ingress) + used idp + used p.clone + used (p.port .egress) = _
    unfold count
    omega

/-- A binding takes one port more. -/
theorem count_bind {t : FbType} {dir : PathType} {idp : Idp} {p q : Ports}
    (h : p.bind t dir idp = some q) (hi : idp ≠ idpUnknown) : q.count = p.count + 1 := by
  obtain ⟨h1, rfl⟩ | ⟨-, -, hc, rfl⟩ := bind_cases h
  · have := count_set p dir idp
    rw [h1, used_unknown, used_of_ne hi] at this
    omega
  · unfold count
    rw [hc, used_unknown, used_of_ne hi]

/-- An unbinding gives one port back. -/
theorem count_unbind {t : FbType} {dir : PathType} {idp : Idp} {p q : Ports}
    (h : p.unbind t dir idp = some q) (hi : idp ≠ idpUnknown) : q.count + 1 = p.count := by
  obtain ⟨h1, rfl⟩ | ⟨-, -, hc, rfl⟩ := unbind_cases h
  · have := count_set p dir idpUnknown
    rw [h1, used_unknown, used_of_ne hi] at this
    omega
  · unfold count
    rw [hc, used_unknown, used_of_ne hi]

/-- What has been bound can be unbound. -/
theorem unbind_of_bind {t : FbType} {dir : PathType} {idp : Idp} {p q : Ports}
    (h : p.bind t dir idp = some q) : ∃ r, q.unbind t dir idp = some r := by
  obtain ⟨-, rfl⟩ | ⟨-, ht, -, rfl⟩ := bind_cases h
  · exact ⟨_, unbind_of_port (set_self ..) t⟩
  · by_cases hport : p.port dir = idp
    · exact ⟨_, unbind_of_port (p := { p with clone := idp }) hport t⟩
    · exact ⟨_, unbind_of_clone hport ht rfl⟩

/-- A block with two ports binds where the port is free. -/
theorem bind_two {t : FbType} (ht : t ≠ .tee) (dir : PathType) (idp : Idp) (p : Ports) :
    p.bind t dir idp = if p.port dir = idpUnknown then some (p.set dir idp) else none := by
  unfold bind
  simp only [ht, false_and, if_false]

/-- A block with two ports unbinds where the port holds the idp. -/
theorem unbind_two {t : FbType} (ht : t ≠ .tee) (dir : PathType) (idp : Idp) (p : Ports) :
    p.unbind t dir idp = if p.port dir = idp then some (p.set dir idpUnknown) else none := by
  unfold unbind
  simp only [ht, false_and, if_false]

end Ports

/-- The ports in a private area. -/
def Priv.ports (p : Priv) : Ports := ⟨p.port, p.portClone⟩

/-! ## The loop over the CPUs -/

section Loop

variable {f : Priv → Option Priv} {g : Ports → Option Ports}

/-- A refusal on the first CPU changes nothing. -/
theorem forEachOnlineCpu_refused (hfg : ∀ p, (f p).map Priv.ports = g p.ports) {cpus : List Cpu}
    (hne : cpus ≠ []) {priv : Cpu → Priv} {P : Ports} (hP : ∀ c ∈ cpus, (priv c).ports = P)
    (hg : g P = none) : forEachOnlineCpu f cpus priv = (.bad, priv) := by
  obtain ⟨c, cs, rfl⟩ := List.exists_cons_of_ne_nil hne
  have hf : f (priv c) = none := by
    have := hfg (priv c)
    rwa [hP c List.mem_cons_self, hg, Option.map_eq_none_iff] at this
  unfold forEachOnlineCpu
  rw [hf]

/-- Accepted by one CPU means accepted by all. -/
theorem forEachOnlineCpu_accepted (hfg : ∀ p, (f p).map Priv.ports = g p.ports) {P Q : Ports}
    (hg : g P = some Q) : ∀ {cpus : List Cpu}, cpus.Nodup → ∀ {priv : Cpu → Priv},
      (∀ c ∈ cpus, (priv c).ports = P) → ∃ priv', forEachOnlineCpu f cpus priv = (.ok, priv') ∧
        (∀ c ∈ cpus, (priv' c).ports = Q ∧ f (priv c) = some (priv' c)) ∧
        ∀ c ∉ cpus, priv' c = priv c := by
  intro cpus
  induction cpus with
  | nil => exact fun _ priv _ => ⟨priv, rfl, by simp, fun _ _ => rfl⟩
  | cons c cs ih =>
    intro hnd priv hP
    obtain ⟨hc, hnd⟩ := List.nodup_cons.1 hnd
    obtain ⟨p, hp, hQ⟩ : ∃ p, f (priv c) = some p ∧ p.ports = Q := by
      have := hfg (priv c)
      rw [hP c List.mem_cons_self, hg] at this
      exact Option.map_eq_some_iff.1 this
    have hne : ∀ d ∈ cs, d ≠ c := fun d hd e => hc (e ▸ hd)
    obtain ⟨priv', heq, hin, hout⟩ := @ih hnd (Function.update priv c p) fun d hd => by
      rw [Function.update_of_ne (hne d hd)]
      exact hP d (List.mem_cons_of_mem _ hd)
    refine ⟨priv', ?_, ?_, ?_⟩
    · unfold forEachOnlineCpu
      rw [hp]
      exact heq
    · intro d hd
      rcases List.mem_cons.1 hd with rfl | hd
      · rw [hout d hc, Function.update_self]
        exact ⟨hQ, hp⟩
      · have := hin d hd
        rwa [Function.update_of_ne (hne d hd)] at this
    · intro d hd
      rw [List.mem_cons, not_or] at hd
      rw [hout d hd.2, Function.update_of_ne hd.1]

end Loop

/-! ## Events -/

/-- All online CPUs hold the ports `P`. -/
def Copies (s : State) (P : Addr → Ports) : Prop :=
  ∀ a, ∀ c ∈ s.online.cpus, (s.privateData a c).ports = P a

/-- The CPUs that are online decide the ports. -/
theorem Copies.unique {s : State} {P P' : Addr → Ports} (h : Copies s P) (h' : Copies s P') :
    P' = P := by
  obtain ⟨c, cs, hc⟩ := List.exists_cons_of_ne_nil s.online.nonempty
  have hmem : c ∈ s.online.cpus := hc ▸ List.mem_cons_self
  funext a
  exact (h' a c hmem).symm.trans (h a c hmem)

/-- A release clears filters, not ports. -/
theorem ports_putFblock (s : State) (b a : Addr) (c : Cpu) :
    ((putFblock s b).privateData a c).ports = (s.privateData a c).ports := by
  by_cases h : s.refcnt b = 1
  · rcases hf : s.factory b with _ | f
    · rw [putFblock_of_no_factory hf]
      rfl
    · rw [putFblock_release h hf]
      cases f
      case bpf =>
        show ((Function.update s.privateData b _) a c).ports = _
        by_cases ha : a = b
        · subst ha
          rw [Function.update_self]
          show (if c ∈ s.online.cpus then { s.privateData a c with filter := none }
            else s.privateData a c).ports = _
          split_ifs <;> rfl
        · rw [Function.update_of_ne ha]
      all_goals rfl
  · rw [putFblock_eq h]
    rfl

/-- `Copies` depends on the ports and the CPUs. -/
theorem Copies.of_ports {s s' : State} {P : Addr → Ports} (h : Copies s P)
    (ho : s'.online = s.online)
    (hp : ∀ a c, (s'.privateData a c).ports = (s.privateData a c).ports) : Copies s' P := by
  intro a c hc
  rw [hp]
  exact h a c (ho ▸ hc)

theorem Copies.addRefs {s : State} {P : Addr → Ports} (h : Copies s P) (δ : Addr → ℤ) :
    Copies (s.addRefs δ) P := h

theorem Copies.putFblock {s : State} {P : Addr → Ports} (h : Copies s P) (a : Addr) :
    Copies (putFblock s a) P :=
  h.of_ports (congrArg Registry.online (registry_putFblock s a)) (ports_putFblock s a)

theorem Copies.unlink {s : State} {P : Addr → Ports} (h : Copies s P) (us remote : Addr) :
    Copies (s.unlink us remote) P := by
  refine h.of_ports ?_ fun a c => ?_
  · exact congrArg Registry.online (registry_unlink s us remote)
  · rw [privateData_unlink]

theorem Copies.unsubscribe {s : State} {P : Addr → Ports} (h : Copies s P) (us remote : Addr) :
    Copies (unsubscribeFromRemoteFblock s us remote) P := by
  by_cases hn : s.notifiers us = []
  · rwa [unsubscribe_eq_of_nil remote hn]
  · rw [unsubscribe_eq_of_ne_nil remote hn]
    exact ((h.unlink us remote).putFblock us).putFblock remote

/-- The areas differ in the ports of `fb` only. -/
def OnlyPorts (fb : Addr) (pd pd' : Addr → Cpu → Priv) : Prop :=
  (∀ a, a ≠ fb → pd' a = pd a) ∧
    ∀ c, pd' fb c = { pd fb c with port := (pd' fb c).port, portClone := (pd' fb c).portClone }

/-- The handler of a type on one area, as `Ports.bind`. -/
def FbType.bindPriv (t : FbType) (dir : PathType) (idp : Idp) : Priv → Option Priv :=
  match t with
  | .tee => bindTee dir idp
  | _ => bindPort dir idp

/-- The handler of a type on one area, as `Ports.unbind`. -/
def FbType.unbindPriv (t : FbType) (dir : PathType) (idp : Idp) : Priv → Option Priv :=
  match t with
  | .tee => unbindTee dir idp
  | _ => unbindPort dir idp

theorem event_bind (t : FbType) (dir : PathType) (idp : Idp) :
    t.event (.bindIdp dir idp) = forEachOnlineCpu (t.bindPriv dir idp) := by
  cases t <;> rfl

theorem event_unbind (t : FbType) (dir : PathType) (idp : Idp) :
    t.event (.unbindIdp dir idp) = forEachOnlineCpu (t.unbindPriv dir idp) := by
  cases t <;> rfl

theorem bindPriv_ports (t : FbType) (dir : PathType) (idp : Idp) (p : Priv) :
    (t.bindPriv dir idp p).map Priv.ports = p.ports.bind t dir idp := by
  unfold Ports.bind
  cases t <;> simp only [FbType.bindPriv, bindPort, bindTee, Priv.ports] <;> split_ifs <;>
    simp_all [Priv.ports, Ports.set]

theorem unbindPriv_ports (t : FbType) (dir : PathType) (idp : Idp) (p : Priv) :
    (t.unbindPriv dir idp p).map Priv.ports = p.ports.unbind t dir idp := by
  unfold Ports.unbind
  cases t <;> simp only [FbType.unbindPriv, unbindPort, unbindTee, Priv.ports] <;> split_ifs <;>
    simp_all [Priv.ports, Ports.set]

theorem bindPriv_onlyPorts {t : FbType} {dir : PathType} {idp : Idp} {p q : Priv}
    (h : t.bindPriv dir idp p = some q) : q = { p with port := q.port, portClone := q.portClone } := by
  cases t <;> simp only [FbType.bindPriv, bindPort, bindTee] at h <;> split_ifs at h <;>
    obtain rfl := Option.some.inj h <;> rfl

theorem unbindPriv_onlyPorts {t : FbType} {dir : PathType} {idp : Idp} {p q : Priv}
    (h : t.unbindPriv dir idp p = some q) :
    q = { p with port := q.port, portClone := q.portClone } := by
  cases t <;> simp only [FbType.unbindPriv, unbindPort, unbindTee] at h <;> split_ifs at h <;>
    obtain rfl := Option.some.inj h <;> rfl

/-- `FBLOCK_BIND_IDP` and `FBLOCK_UNBIND_IDP`. -/
inductive BindEvent where
  | bind (dir : PathType) (idp : Idp)
  | unbind (dir : PathType) (idp : Idp)
  deriving DecidableEq

namespace BindEvent

def idp : BindEvent → Idp
  | bind _ idp => idp
  | unbind _ idp => idp

def event : BindEvent → FbEvent
  | bind dir idp => .bindIdp dir idp
  | unbind dir idp => .unbindIdp dir idp

/-- The event on the private area of one CPU. -/
def onPriv (t : FbType) : BindEvent → Priv → Option Priv
  | bind dir idp => t.bindPriv dir idp
  | unbind dir idp => t.unbindPriv dir idp

/-- The event on one set of ports; `none` when it is refused. -/
def onPorts (t : FbType) : BindEvent → Ports → Option Ports
  | bind dir idp => Ports.bind t dir idp
  | unbind dir idp => Ports.unbind t dir idp

theorem event_eq (t : FbType) (ev : BindEvent) :
    t.event ev.event = forEachOnlineCpu (ev.onPriv t) := by
  cases ev with
  | bind dir idp => exact event_bind t dir idp
  | unbind dir idp => exact event_unbind t dir idp

theorem onPriv_ports (t : FbType) (ev : BindEvent) (p : Priv) :
    (ev.onPriv t p).map Priv.ports = ev.onPorts t p.ports := by
  cases ev with
  | bind dir idp => exact bindPriv_ports t dir idp p
  | unbind dir idp => exact unbindPriv_ports t dir idp p

theorem onPriv_onlyPorts {t : FbType} {ev : BindEvent} {p q : Priv} (h : ev.onPriv t p = some q) :
    q = { p with port := q.port, portClone := q.portClone } := by
  cases ev with
  | bind dir idp => exact bindPriv_onlyPorts h
  | unbind dir idp => exact unbindPriv_onlyPorts h

end BindEvent

/-- An event on copies that agree is refused and changes nothing, or gives every online CPU the same
new ports. -/
theorem event_cases (t : FbType) (ev : BindEvent) (online : OnlineCpus) {area : Cpu → Priv}
    {P : Ports} (hP : ∀ c ∈ online.cpus, (area c).ports = P) :
    (ev.onPorts t P = none ∧ t.event ev.event online.cpus area = (.bad, area)) ∨
      ∃ Q area', ev.onPorts t P = some Q ∧ t.event ev.event online.cpus area = (.ok, area') ∧
        (∀ c ∈ online.cpus, (area' c).ports = Q ∧ ev.onPriv t (area c) = some (area' c)) ∧
        ∀ c ∉ online.cpus, area' c = area c := by
  have hfg := ev.onPriv_ports t
  rw [ev.event_eq t]
  rcases hg : ev.onPorts t P with _ | Q
  · exact .inl ⟨rfl, forEachOnlineCpu_refused hfg online.nonempty hP hg⟩
  · obtain ⟨area', heq, hin, hout⟩ := forEachOnlineCpu_accepted hfg hg online.nodup hP
    exact .inr ⟨Q, area', rfl, heq, hin, hout⟩

/-- An event on the copies of a block. -/
theorem eventRx_cases {s : State} {P : Addr → Ports} (hP : Copies s P) (fb : Addr)
    (ev : BindEvent) :
    (ev.onPorts (s.ops fb) (P fb) = none ∧ eventRx s fb ev.event = (.bad, s)) ∨
      ∃ Q pd, ev.onPorts (s.ops fb) (P fb) = some Q ∧
        eventRx s fb ev.event = (.ok, s.withPriv pd) ∧
        Copies (s.withPriv pd) (Function.update P fb Q) ∧ OnlyPorts fb s.privateData pd := by
  unfold eventRx
  rcases event_cases (s.ops fb) ev s.online (hP fb) with ⟨hg, heq⟩ | ⟨Q, area, hg, heq, hin, hout⟩
  · refine .inl ⟨hg, ?_⟩
    simp only [heq, Function.update_eq_self]
  · refine .inr ⟨Q, Function.update s.privateData fb area, hg, ?_, ?_, ?_, ?_⟩
    · rw [heq]
      rfl
    · intro a c hc
      by_cases ha : a = fb
      · subst ha
        simp only [withPriv, Function.update_self]
        exact (hin c hc).1
      · simp only [withPriv, Function.update_of_ne ha]
        exact hP a c hc
    · exact fun a ha => Function.update_of_ne ha ..
    · intro c
      rw [Function.update_self]
      by_cases hc : c ∈ s.online.cpus
      · exact BindEvent.onPriv_onlyPorts (hin c hc).2
      · rw [hout c hc]

/-- `FBLOCK_BIND_IDP` on agreeing copies. -/
theorem eventRx_bind {s : State} {P : Addr → Ports} (hP : Copies s P) (fb : Addr)
    (dir : PathType) (idp : Idp) :
    ((P fb).bind (s.ops fb) dir idp = none ∧ eventRx s fb (.bindIdp dir idp) = (.bad, s)) ∨
      ∃ Q pd, (P fb).bind (s.ops fb) dir idp = some Q ∧
        eventRx s fb (.bindIdp dir idp) = (.ok, s.withPriv pd) ∧
        Copies (s.withPriv pd) (Function.update P fb Q) ∧ OnlyPorts fb s.privateData pd :=
  eventRx_cases hP fb (.bind dir idp)

/-- `FBLOCK_UNBIND_IDP` on agreeing copies. -/
theorem eventRx_unbind {s : State} {P : Addr → Ports} (hP : Copies s P) (fb : Addr)
    (dir : PathType) (idp : Idp) :
    ((P fb).unbind (s.ops fb) dir idp = none ∧ eventRx s fb (.unbindIdp dir idp) = (.bad, s)) ∨
      ∃ Q pd, (P fb).unbind (s.ops fb) dir idp = some Q ∧
        eventRx s fb (.unbindIdp dir idp) = (.ok, s.withPriv pd) ∧
        Copies (s.withPriv pd) (Function.update P fb Q) ∧ OnlyPorts fb s.privateData pd :=
  eventRx_cases hP fb (.unbind dir idp)

end Lana
