import Lana.Library.Interleave
import Lana.User.Commands

/-!
# Two subscriptions at once

`subscribe_to_remote_fblock` pushes a node on the list of the subscriber under its lock, drops the
lock, and then registers whatever node is the head of the list.  Two calls with one subscriber
register their own nodes exactly when neither pushes between the push of the other and the moment
the other reads the head (`subscriptions_apart_iff`).
-/

namespace Lana

open Interleave

/-! ## The steps of `subscribe_to_remote_fblock` -/

/-- Where a call stands; `fn` is its own node and `nb` the one it is about to register. -/
inductive SubscribePc where
  | alloc
  | push (fn : NodeAddr)
  | head (fn : NodeAddr)
  | register (fn nb : NodeAddr)
  | done (ret : Ret) (node : Option NodeAddr)
  deriving DecidableEq

namespace SubscribePc

/-- One step: `kmalloc` and the references, the push under `us->lock`, the read of
`us->notifiers`, the registration with the chain of the remote block. -/
def step (alloc : Bool) (us remote : Addr) (s : State) : SubscribePc → State × SubscribePc
  | .alloc =>
    if !alloc then (s, .done (.err .ENOMEM) none)
    else (getFblock (getFblock { s with nextNode := s.nextNode + 1 } us) remote,
      .push s.nextNode)
  | .push fn =>
    ({ s with
      self := Function.update s.self fn us
      remote := Function.update s.remote fn (s.idp remote)
      notifierCall := Function.update s.notifierCall fn (s.ops us)
      notifiers := Function.update s.notifiers us (fn :: s.notifiers us) }, .head fn)
  | .head fn => (s, .register fn ((s.notifiers us).headD fn))
  | .register fn nb =>
    ({ s with
      subscribers := Function.update s.subscribers remote (s.subscribers remote ++ [nb]) },
      .done .ok (some fn))
  | .done ret node => (s, .done ret node)

/-- The node of the call. -/
def node : SubscribePc → Option NodeAddr
  | .alloc => none
  | .push fn | .head fn | .register fn _ => some fn
  | .done _ node => node

/-- The node of a call that has returned. -/
def registered : SubscribePc → Option NodeAddr
  | .done _ node => node
  | _ => none

def ended : SubscribePc → Bool
  | .done .. => true
  | _ => false

def pushes : SubscribePc → Bool
  | .push _ => true
  | _ => false

/-- The call has pushed its node and not yet read the head. -/
def pushed : SubscribePc → Bool
  | .head _ => true
  | _ => false

end SubscribePc

/-- The steps of a call are the call. -/
theorem subscribe_reaches (alloc : Bool) (s : State) (us remote : Addr) :
    ∃ node, Reaches (SubscribePc.step alloc us remote) (s, .alloc)
      ((subscribeToRemoteFblock alloc s us remote).2,
        .done (subscribeToRemoteFblock alloc s us remote).1 node) := by
  cases alloc
  · exact ⟨none, .head rfl (.refl _)⟩
  · exact ⟨some s.nextNode, .head rfl (.head rfl (.head rfl (.head rfl (.refl _))))⟩

/-! ## Calls that do not meet -/

section Apart

variable (s₀ : State) (us r1 r2 : Addr)

/-- What a call has read is its own node, and what it is about to read as well. -/
def SubscribePc.Own (s : State) : SubscribePc → Prop
  | .head fn => (s.notifiers us).head? = some fn
  | .register fn nb => nb = fn
  | _ => True

/-- Each call registers its own node, with its own remote block. -/
structure Apart (s : State) (p q : SubscribePc) : Prop where
  fresh : s₀.nextNode ≤ s.nextNode
  first : ∀ n, p.node = some n → s₀.nextNode ≤ n ∧ n < s.nextNode
  second : ∀ n, q.node = some n → s₀.nextNode ≤ n ∧ n < s.nextNode
  distinct : ∀ n, p.node = some n → q.node ≠ some n
  ownFirst : p.Own us s
  ownSecond : q.Own us s
  chains : ∀ a n, s₀.nextNode ≤ n → (n ∈ s.subscribers a ↔
    p.registered = some n ∧ a = r1 ∨ q.registered = some n ∧ a = r2)

variable {s₀ us r1 r2} {s : State} {p q : SubscribePc}

theorem Apart.symm (h : Apart s₀ us r1 r2 s p q) : Apart s₀ us r2 r1 s q p where
  fresh := h.fresh
  first := h.second
  second := h.first
  distinct := fun n hn hn' => h.distinct n hn' hn
  ownFirst := h.ownSecond
  ownSecond := h.ownFirst
  chains := fun a n hn => (h.chains a n hn).trans or_comm

/-- A step of the first call that does not push over the node of the second. -/
theorem Apart.step (h : Apart s₀ us r1 r2 s p q) (alloc : Bool)
    (hok : p.pushes = true → q.pushed = false) :
    Apart s₀ us r1 r2 (p.step alloc us r1 s).1 (p.step alloc us r1 s).2 q := by
  obtain ⟨hfresh, hfirst, hsecond, hdistinct, hown, hown', hchains⟩ := h
  cases p with
  | alloc =>
    cases alloc
    · have hnone : ∀ n : NodeAddr, none ≠ some n := fun n => (Option.some_ne_none n).symm
      exact ⟨hfresh, fun n hn => absurd hn (hnone n), hsecond, fun n hn => absurd hn (hnone n),
        trivial, hown', hchains⟩
    · refine ⟨Nat.le_succ_of_le hfresh, fun n hn => ?_, fun n hn => ?_, fun n hn hn' => ?_, trivial,
        hown', hchains⟩
      · obtain rfl := Option.some.inj hn
        exact ⟨hfresh, Nat.lt_succ_self _⟩
      · obtain ⟨hle, hlt⟩ := hsecond n hn
        exact ⟨hle, Nat.lt_succ_of_lt hlt⟩
      · obtain rfl := Option.some.inj hn
        exact absurd (hsecond _ hn').2 (lt_irrefl _)
  | push fn =>
    refine ⟨hfresh, hfirst, hsecond, hdistinct, ?_, ?_, hchains⟩
    · show (Function.update s.notifiers us (fn :: s.notifiers us) us).head? = some fn
      rw [Function.update_self, List.head?_cons]
    · cases q with
      | head fn' => cases hok rfl
      | alloc | push | register | done => exact hown'
  | head fn =>
    refine ⟨hfresh, hfirst, hsecond, hdistinct, ?_, hown', hchains⟩
    show (s.notifiers us).headD fn = fn
    rw [List.headD_eq_head?_getD, show (s.notifiers us).head? = some fn from hown]
    rfl
  | register fn nb =>
    obtain rfl : nb = fn := hown
    refine ⟨hfresh, hfirst, hsecond, hdistinct, trivial, ?_, fun a n hn => ?_⟩
    · cases q with
      | head | alloc | push | register | done => exact hown'
    · have hold := hchains a n hn
      simp only [SubscribePc.step, SubscribePc.registered, Function.update_apply] at hold ⊢
      split_ifs with ha
      · subst ha
        rw [List.mem_append, hold, List.mem_singleton, Option.some.injEq]
        simp only [reduceCtorEq, false_or, and_true]
        rw [or_comm, eq_comm]
      · rw [hold]
        simp [ha]
  | done ret node => exact ⟨hfresh, hfirst, hsecond, hdistinct, trivial, hown', hchains⟩

end Apart

/-! ## Calls that meet -/

section Lost

variable (us : Addr)

/-- The node `n` of the first call is on no chain, and neither call will register it. -/
structure Lost (n : NodeAddr) (s : State) (p q : SubscribePc) : Prop where
  node : p.node = some n
  covered : (s.notifiers us).head? ≠ some n
  nonempty : s.notifiers us ≠ []
  unchained : ∀ a, n ∉ s.subscribers a
  first : p.pushed = true ∨ (∃ nb, p = .register n nb ∧ nb ≠ n) ∨ p.ended = true
  second : q.pushed = true ∨ (∃ fn nb, q = .register fn nb ∧ nb ≠ n) ∨ q.ended = true

variable {us} {n : NodeAddr} {s : State} {p q : SubscribePc}

theorem headD_ne (hne : s.notifiers us ≠ []) (hcov : (s.notifiers us).head? ≠ some n)
    (fn : NodeAddr) : (s.notifiers us).headD fn ≠ n := by
  obtain ⟨m, l, hl⟩ := List.exists_cons_of_ne_nil hne
  rw [hl] at hcov ⊢
  simpa using hcov

/-- The registration of another node. -/
theorem unchained_register (hun : ∀ a, n ∉ s.subscribers a) {nb : NodeAddr} (hnb : nb ≠ n)
    (r a : Addr) : n ∉ Function.update s.subscribers r (s.subscribers r ++ [nb]) a := by
  intro ha
  rw [Function.update_apply] at ha
  split_ifs at ha
  · rcases List.mem_append.1 ha with ha | ha
    · exact hun r ha
    · exact hnb (List.mem_singleton.1 ha).symm
  · exact hun a ha

theorem Lost.first_step (h : Lost us n s p q) (alloc : Bool) (r : Addr) :
    Lost us n (p.step alloc us r s).1 (p.step alloc us r s).2 q := by
  obtain ⟨hnode, hcov, hne, hun, hfirst, hsecond⟩ := h
  cases p with
  | alloc | push => obtain h | ⟨nb, h, -⟩ | h := hfirst <;> cases h
  | head fn =>
    obtain rfl := Option.some.inj hnode
    exact ⟨rfl, hcov, hne, hun, .inr (.inl ⟨_, rfl, headD_ne hne hcov fn⟩), hsecond⟩
  | register fn nb =>
    obtain h | ⟨nb', h, hnb⟩ | h := hfirst
    · cases h
    · obtain ⟨rfl, rfl⟩ := SubscribePc.register.inj h
      exact ⟨rfl, hcov, hne, unchained_register hun hnb r, .inr (.inr rfl), hsecond⟩
    · cases h
  | done ret node => exact ⟨hnode, hcov, hne, hun, hfirst, hsecond⟩

theorem Lost.second_step (h : Lost us n s p q) (alloc : Bool) (r : Addr) :
    Lost us n (q.step alloc us r s).1 p (q.step alloc us r s).2 := by
  obtain ⟨hnode, hcov, hne, hun, hfirst, hsecond⟩ := h
  cases q with
  | alloc | push => obtain h | ⟨fn, nb, h, -⟩ | h := hsecond <;> cases h
  | head fn =>
    exact ⟨hnode, hcov, hne, hun, hfirst, .inr (.inl ⟨_, _, rfl, headD_ne hne hcov fn⟩)⟩
  | register fn nb =>
    obtain h | ⟨fn', nb', h, hnb⟩ | h := hsecond
    · cases h
    · obtain ⟨rfl, rfl⟩ := SubscribePc.register.inj h
      exact ⟨hnode, hcov, hne, unchained_register hun hnb r, hfirst, .inr (.inr rfl)⟩
    · cases h
  | done ret node => exact ⟨hnode, hcov, hne, hun, hfirst, hsecond⟩

/-- A push over the node of the other call, before that call has read the head. -/
theorem Apart.lost {s₀ : State} {r1 r2 : Addr} (h : Apart s₀ us r1 r2 s p q) (alloc : Bool)
    (hp : p.pushes = true) (hq : q.pushed = true) :
    ∃ n, Lost us n (p.step alloc us r1 s).1 q (p.step alloc us r1 s).2 := by
  cases p with
  | push m =>
    cases q with
    | head n =>
      refine ⟨n, rfl, ?_, ?_, fun a ha => ?_, .inl rfl, .inl rfl⟩
      · show (Function.update s.notifiers us (m :: s.notifiers us) us).head? ≠ some n
        rw [Function.update_self, List.head?_cons]
        exact fun he => h.distinct m rfl (congrArg some (Option.some.inj he).symm)
      · show Function.update s.notifiers us (m :: s.notifiers us) us ≠ []
        rw [Function.update_self]
        exact List.cons_ne_nil _ _
      · rcases (h.chains a n (h.second n rfl).1).1 ha with ⟨hr, -⟩ | ⟨hr, -⟩ <;> cases hr
    | alloc | push | register | done => cases hq
  | alloc | head | register | done => cases hp

end Lost

/-! ## Two calls -/

/-- Neither call pushes between the push of the other and its read of the head. -/
def Separate (c : Config State SubscribePc SubscribePc) : Thread → Prop
  | .first => c.first.pushes = true → c.second.pushed = false
  | .second => c.second.pushes = true → c.first.pushed = false

instance (c : Config State SubscribePc SubscribePc) : ∀ turn, Decidable (Separate c turn)
  | .first => inferInstanceAs (Decidable (c.first.pushes = true → c.second.pushed = false))
  | .second => inferInstanceAs (Decidable (c.second.pushes = true → c.first.pushed = false))

/-- Every node is on the chain of the block it was made for, and on no other. -/
def Unmixed (c : Config State SubscribePc SubscribePc) (r1 r2 : Addr) : Prop :=
  (∀ n, c.first.node = some n → ∀ a, n ∈ c.shared.subscribers a ↔ a = r1) ∧
    ∀ n, c.second.node = some n → ∀ a, n ∈ c.shared.subscribers a ↔ a = r2

theorem registered_of_ended {p : SubscribePc} (h : p.ended = true) : p.registered = p.node := by
  cases p with
  | done => rfl
  | alloc | push | head | register => cases h

theorem Apart.unmixed {s₀ : State} {us r1 r2 : Addr} {c : Config State SubscribePc SubscribePc}
    (h : Apart s₀ us r1 r2 c.shared c.first c.second) (h1 : c.first.ended = true)
    (h2 : c.second.ended = true) : Unmixed c r1 r2 := by
  have hr1 := registered_of_ended h1
  have hr2 := registered_of_ended h2
  refine ⟨fun n hn a => ?_, fun n hn a => ?_⟩
  · rw [h.chains a n (h.first n hn).1, hr1, hr2]
    simp [hn, h.distinct n hn]
  · rw [h.chains a n (h.second n hn).1, hr1, hr2]
    have : c.first.node ≠ some n := fun hn' => h.distinct n hn' hn
    simp [hn, this]

/-- **Iff.** When two calls with one subscriber have returned, the node of each is on the chain of
its own remote block and on no other, exactly if neither call pushed its node between the push of
the other and the moment the other read the head of the list. -/
theorem subscriptions_apart_iff (s : State) (us r1 r2 : Addr) (al1 al2 : Bool)
    (hchains : ∀ a, ∀ n ∈ s.subscribers a, n < s.nextNode) (sched : List Thread) :
    let c := Interleave.run (SubscribePc.step al1 us r1) (SubscribePc.step al2 us r2)
      ⟨s, .alloc, .alloc⟩ sched
    c.first.ended = true → c.second.ended = true →
      (Unmixed c r1 r2 ↔
        Transition.Allowed (step (SubscribePc.step al1 us r1) (SubscribePc.step al2 us r2)) Separate
          ⟨s, .alloc, .alloc⟩ sched) := by
  have hstart : Apart s us r1 r2 s .alloc .alloc := by
    refine ⟨le_refl _, ?_, ?_, ?_, trivial, trivial, fun a n hn => ?_⟩
    · rintro n ⟨⟩
    · rintro n ⟨⟩
    · rintro n ⟨⟩
    · constructor
      · exact fun h => absurd (hchains a n h) (not_lt.2 hn)
      · rintro (⟨h, -⟩ | ⟨h, -⟩) <;> cases h
  let I : Config State SubscribePc SubscribePc → Prop :=
    fun c => Apart s us r1 r2 c.shared c.first c.second
  let J : Config State SubscribePc SubscribePc → Prop := fun c =>
    (∃ n, Lost us n c.shared c.first c.second) ∨ ∃ n, Lost us n c.shared c.second c.first
  have hstep : ∀ c turn, I c → Separate c turn →
      I (step (SubscribePc.step al1 us r1) (SubscribePc.step al2 us r2) c turn) := by
    intro c turn h hok
    cases turn with
    | first => exact Apart.step h al1 hok
    | second => exact (Apart.step h.symm al2 hok).symm
  have hbad : ∀ c turn, I c → ¬ Separate c turn →
      J (step (SubscribePc.step al1 us r1) (SubscribePc.step al2 us r2) c turn) := by
    intro c turn h hok
    cases turn with
    | first =>
      obtain ⟨hp, hq⟩ := Classical.not_imp.1 hok
      exact .inr (Apart.lost h al1 hp (by simpa using hq))
    | second =>
      obtain ⟨hp, hq⟩ := Classical.not_imp.1 hok
      exact .inl (Apart.lost h.symm al2 hp (by simpa using hq))
  have hkeep : ∀ c turn, J c →
      J (step (SubscribePc.step al1 us r1) (SubscribePc.step al2 us r2) c turn) := by
    rintro c turn (⟨n, h⟩ | ⟨n, h⟩)
    · cases turn with
      | first => exact .inl ⟨n, h.first_step al1 r1⟩
      | second => exact .inl ⟨n, h.second_step al2 r2⟩
    · cases turn with
      | first => exact .inr ⟨n, h.second_step al1 r1⟩
      | second => exact .inr ⟨n, h.first_step al2 r2⟩
  intro c h1 h2
  constructor
  · intro hun
    by_contra hnot
    rcases Transition.of_not_allowed hstep hbad hkeep hstart hnot with ⟨n, h⟩ | ⟨n, h⟩
    · exact h.unchained r1 ((hun.1 n h.node r1).2 rfl)
    · exact h.unchained r2 ((hun.2 n h.node r2).2 rfl)
  · exact fun hok => Apart.unmixed (Transition.invariant_of_allowed hstep hstart hok) h1 h2

/-- Three blocks without subscriptions. -/
def threeBlocks : State :=
  run (State.init oneCpu) [.add nameA Factory.dummy.type .ok, .add nameB Factory.dummy.type .ok,
    .add nameC Factory.dummy.type .ok]

/-- The second call pushes after the first one has read the head. -/
def pushAfterRead : List Thread :=
  [.first, .second, .first, .first, .second, .second, .first, .second]

/-- The second call pushes before the first one has read the head. -/
def pushBeforeRead : List Thread :=
  [.first, .first, .second, .second, .first, .first, .second, .second]

theorem subscriptions_apart_after :
    Unmixed (Interleave.run (SubscribePc.step true 0 1) (SubscribePc.step true 0 2)
      ⟨threeBlocks, .alloc, .alloc⟩ pushAfterRead) 1 2 := by
  have hempty : threeBlocks.subscribers =
      Function.update (Function.update (Function.update (fun _ => []) 0 []) 1 []) 2 [] := rfl
  have hchains : ∀ a, ∀ n ∈ threeBlocks.subscribers a, n < threeBlocks.nextNode := by
    intro a n hn
    simp [hempty, Function.update_apply] at hn
  exact (subscriptions_apart_iff threeBlocks 0 1 2 true true hchains pushAfterRead (by decide)
    (by decide)).2 (by decide)

/-- The node of the first call, node 0, is on no chain; that of the second call is on both. -/
theorem subscriptions_mixed :
    let c := Interleave.run (SubscribePc.step true 0 1) (SubscribePc.step true 0 2)
      ⟨threeBlocks, .alloc, .alloc⟩ pushBeforeRead
    c.first = .done .ok (some 0) ∧ c.second = .done .ok (some 1) ∧
      c.shared.subscribers 1 = [1] ∧ c.shared.subscribers 2 = [1] := by
  decide

end Lana
