import Lana.User.Replacing

/-!
# A replacement touches nothing that is freed

A count that is off may release a block too early.  Every release happens at a count of 0, and the
count of a block is the packets inside and what is `held` otherwise, so a block that is held is not
released (`Firm`).  The replacement holds what it touches, and what is in the tables is held, unless
the packets that were inside at the exchange outweigh the other references (`replace_safe`).
-/

namespace Lana

open State Interleave

/-! ## Nothing freed is touched -/

/-- With `held` references to a block that are not those of packets: a packet that has seen a block is
waited for, and a block with other references has not been released. -/
structure Firm {ι : Type*} (held : Addr → ℤ) (s : Traffic ι) : Prop where
  seen : ∀ i b, (s.pc i).seen = some b → s.Shields i b
  firm : ∀ b, 0 < held b → s.releases b = 0
  fault : s.fault = false

namespace Firm

variable {ι : Type*} {s s' : Traffic ι} {held held' : Addr → ℤ} {fb : Addr}

theorem alive (h : Firm held s) (hb : 0 < held fb) : fb ∉ s.freed :=
  (Traffic.not_mem_of_releases (h.firm fb hb)).1

theorem restate (h : Firm held s) (st : State) (hle : ∀ b, 0 < held' b → 0 < held b) :
    Firm held' { s with st := st } :=
  ⟨h.seen, fun b hb => h.firm b (hle b hb), h.fault⟩

theorem put (h : Firm held s) (hle : ∀ b, 0 < held' b → 0 < held b)
    (hlast : s.st.refcnt fb = 1 → held' fb ≤ 0) : Firm held' (s.put fb) := by
  refine ⟨fun i b hb => (h.seen i b hb).put (LifePc.inSection_of_seen hb) fb, fun b hb => ?_,
    h.fault⟩
  rw [Traffic.releases_put, h.firm b (hle b hb), if_neg]
  rintro ⟨rfl, hone, -⟩
  have := hlast hone
  omega

theorem goto [DecidableEq ι] (h : Firm held s) {i : ι} {p : LifePc}
    (hsee : ∀ b, p.seen = some b → s.Shields i b) : Firm held (s.goto i p) := by
  refine ⟨Traffic.seen_goto hsee fun j b _ => h.seen j b, fun b hb => ?_, h.fault⟩
  rw [Traffic.releases_goto]
  exact h.firm b hb

theorem callback (h : Firm held s) {n : ℕ} {w : ι → Bool} (hn : s.waiting[n]? = some (fb, w))
    (hnone : ∀ i, w i = false) : Firm held (s.freeFblockRcu n fb) := by
  refine ⟨fun j b hj => (h.seen j b hj).free hn (hnone j), fun b hb => ?_, h.fault⟩
  rw [Traffic.releases_free hn]
  exact h.firm b hb

end Firm

/-- Packets alone never touch what is freed, as long as the blocks in the tables have a reference. -/
theorem PacketMove.firm {ι : Type*} [Fintype ι] [DecidableEq ι] {s s' : Traffic ι}
    {held : Addr → ℤ} (hm : PacketMove s s') (h : Firm held s)
    (hc : ∀ b, s.st.refcnt b = held b + owed s.pc b)
    (hent : ∀ idp b, s.st.fblmap idp = some b → 0 < held b) : Firm held s' := by
  have htouch : ∀ {i fb}, (s.pc i).seen = some fb → s.touch fb = s :=
    fun hsee => Traffic.touch_eq (h.seen _ _ hsee).1
  cases hm with
  | stay => exact h
  | @stroll i p hold hp =>
    refine h.goto fun b hb => ?_
    rcases hp with rfl | rfl <;> cases hb
  | @load i idp fb hold hmap =>
    refine h.goto fun b hb => ?_
    obtain rfl := Option.some.inj hb
    exact Traffic.shields_of_releases (h.firm fb (hent idp fb hmap)) i
  | @count i fb hpc r =>
    have hsee : (s.pc i).seen = some fb := by rw [hpc]; rfl
    rw [htouch hsee]
    have hget : Firm held (s.get fb) := h.restate _ fun _ hb => hb
    have hgoto : Firm held ((s.get fb).goto i (.inside fb)) := by
      refine hget.goto fun b hb => ?_
      obtain rfl := Option.some.inj hb
      exact h.seen i _ hsee
    exact ⟨hgoto.seen, hgoto.firm, hgoto.fault⟩
  | @rx i fb hpc pd =>
    rw [htouch (i := i) (by rw [hpc]; rfl)]
    exact h.restate _ fun _ hb => hb
  | @leave i fb hpc =>
    rw [htouch (i := i) (by rw [hpc]; rfl)]
    have hput : Firm held (s.put fb) := by
      refine h.put (fun _ hb => hb) fun hone => ?_
      -- the packet itself is inside
      have hin : (s.pc i).refs.count fb ≤ owed s.pc fb :=
        share_le (fun p : LifePc => p.refs.count fb) s.pc i
      rw [hpc] at hin
      simp only [LifePc.refs, List.count_cons_self, List.count_nil] at hin
      have hcount := hc fb
      omega
    exact hput.goto fun _ hb => by cases hb
  | callback hn hnone => exact h.callback hn hnone

/-! ## Accesses -/

/-- The access is to the two blocks, and renames none but the second. -/
def ReplaceAct.Between (fb1 fb2 : Addr) : ReplaceAct → Prop
  | .rename dst src => dst = fb2 ∧ src = fb1
  | .enter fb _ => fb = fb2
  | a => ∀ fb ∈ a.fbs, fb = fb1 ∨ fb = fb2

section Accesses

variable {fb1 fb2 : Addr} {a : ReplaceAct} {acts : List ReplaceAct} {s : State}

theorem between_before {exch : Bool} (h : a ∈ beforeActs fb1 fb2 exch) : a.Between fb1 fb2 := by
  cases exch
  · simp only [beforeActs, Bool.false_eq_true, if_false, List.append_nil, List.cons_append,
      List.nil_append, List.mem_cons, List.not_mem_nil, or_false] at h
    rcases h with rfl | rfl | rfl | rfl | rfl | rfl | rfl | rfl | rfl <;>
      simp [ReplaceAct.Between, ReplaceAct.fbs]
  · simp only [beforeActs, if_true, List.cons_append,
      List.nil_append, List.mem_cons, List.not_mem_nil, or_false] at h
    rcases h with rfl | rfl | rfl | rfl | rfl | rfl | rfl | rfl | rfl | rfl | rfl | rfl | rfl | rfl <;>
      simp [ReplaceAct.Between, ReplaceAct.fbs]

theorem between_after {al : Alloc} (h : a ∈ afterActs fb1 fb2 al) : a.Between fb1 fb2 := by
  simp only [afterActs, List.mem_cons, List.not_mem_nil, or_false] at h
  rcases h with rfl | rfl | rfl | rfl | rfl | rfl | rfl <;> simp [ReplaceAct.Between, ReplaceAct.fbs]

theorem ReplaceAct.Between.fbs (h : a.Between fb1 fb2) : ∀ fb ∈ a.fbs, fb = fb1 ∨ fb = fb2 := by
  cases a with
  | rename dst src =>
    obtain ⟨rfl, rfl⟩ := h
    simp [ReplaceAct.fbs]
  | enter fb al =>
    obtain rfl : fb = fb2 := h
    simp [ReplaceAct.fbs]
  | get _ | put _ | unlink _ | unname _ | swapPriv _ _ | swapNotifiers _ _ | selfref _
  | swapSubscribers _ _ => exact h

/-- The first block keeps its idp. -/
theorem ReplaceAct.Between.idp (h : a.Between fb1 fb2) (hne : fb1 ≠ fb2) :
    (a.onState s).idp fb1 = s.idp fb1 := by
  cases a with
  | rename dst src =>
    obtain ⟨rfl, rfl⟩ := h
    exact Function.update_of_ne hne ..
  | enter fb al =>
    obtain rfl : fb = fb2 := h
    simp only [ReplaceAct.onState, registerFblock, radixTreeInsert]
    split_ifs <;> exact Function.update_of_ne hne ..
  | put fb => exact congrFun (congrArg Registry.idp (registry_putFblock s fb)) fb1
  | unname fb =>
    obtain ⟨t, ht⟩ := unregisterFrom_frame s (s.name fb)
    show (unregisterFromFblockNamespace s (s.name fb)).2.idp fb1 = s.idp fb1
    rw [ht]
  | selfref fb =>
    show (fblockUpdateSelfref s (s.notifiers fb) fb).idp fb1 = s.idp fb1
    rw [updateSelfref_eq]
  | get _ | unlink _ | swapPriv _ _ | swapNotifiers _ _ | swapSubscribers _ _ => rfl

/-- What is in `fblmap` after an access was there before, or has just been registered. -/
theorem fblmap_onState {idp : Idp} {b : Addr} (h : (a.onState s).fblmap idp = some b) :
    s.fblmap idp = some b ∧ (∀ fb, a = .unlink fb → idp ≠ s.idp fb) ∨ ∃ al, a = .enter b al := by
  cases a with
  | unlink fb =>
    have hmap : Function.update s.fblmap (s.idp fb) none idp = some b := h
    rw [Function.update_apply] at hmap
    split_ifs at hmap with hidp
    refine .inl ⟨hmap, ?_⟩
    rintro _ ⟨⟩
    exact hidp
  | enter fb al =>
    simp only [ReplaceAct.onState, registerFblock, radixTreeInsert] at h
    split_ifs at h with hfull
    · exact .inl ⟨h, fun _ ha => by cases ha⟩
    · have hmap : Function.update s.fblmap (s.idp fb) (some fb) idp = some b := h
      rw [Function.update_apply] at hmap
      split_ifs at hmap with hidp
      · obtain rfl := Option.some.inj hmap
        exact .inr ⟨al, rfl⟩
      · exact .inl ⟨hmap, fun _ ha => by cases ha⟩
    · exact .inl ⟨h, fun _ ha => by cases ha⟩
  | put fb =>
    have hmap : (putFblock s fb).fblmap = s.fblmap := congrArg Registry.fblmap (registry_putFblock s fb)
    exact .inl ⟨hmap ▸ h, fun _ ha => by cases ha⟩
  | unname fb =>
    obtain ⟨t, ht⟩ := unregisterFrom_frame s (s.name fb)
    have hmap : (unregisterFromFblockNamespace s (s.name fb)).2.fblmap idp = some b := h
    rw [ht] at hmap
    exact .inl ⟨hmap, fun _ ha => by cases ha⟩
  | selfref fb =>
    have hmap : (fblockUpdateSelfref s (s.notifiers fb) fb).fblmap idp = some b := h
    rw [updateSelfref_eq] at hmap
    exact .inl ⟨hmap, fun _ ha => by cases ha⟩
  | get _ | swapPriv _ _ | rename _ _ | swapNotifiers _ _ | swapSubscribers _ _ =>
    exact .inl ⟨h, fun _ ha => by cases ha⟩

/-- On the way to the exchange no more than one reference more is taken than given back. -/
theorem owes_suffix_before {exch : Bool} (h : acts <:+ beforeActs fb1 fb2 exch) (b : Addr) :
    -(ref fb1 b + ref fb2 b) ≤ owes acts b := by
  have h1 := ref_nonneg fb1 b
  have h2 := ref_nonneg fb2 b
  cases exch
  · simp only [beforeActs, Bool.false_eq_true, if_false, List.append_nil, List.cons_append,
      List.nil_append, List.suffix_cons_iff, List.suffix_nil] at h
    rcases h with rfl | rfl | rfl | rfl | rfl | rfl | rfl | rfl | rfl | rfl <;>
      simp [owes, ReplaceAct.owes] <;> omega
  · simp only [beforeActs, if_true, List.cons_append,
      List.nil_append, List.suffix_cons_iff, List.suffix_nil] at h
    rcases h with rfl | rfl | rfl | rfl | rfl | rfl | rfl | rfl | rfl | rfl | rfl | rfl | rfl | rfl |
      rfl <;> simp [owes, ReplaceAct.owes] <;> omega

/-- After the exchange references are only given back.  Those to the first block last as long as it
is accessed, and there are two while it is in the tables. -/
theorem owes_suffix_after {al : Alloc} (h : acts <:+ afterActs fb1 fb2 al) :
    (∀ b, 0 ≤ owes acts b) ∧ (.unlink fb1 ∈ acts → 2 ≤ owes acts fb1) ∧
      ∀ a l, acts = a :: l → fb1 ∈ a.fbs → fb1 ≠ fb2 → 1 ≤ owes acts fb1 := by
  have h1 := ref_nonneg fb1
  have h2 := ref_nonneg fb2
  have h21 := h2 fb1
  simp only [afterActs, List.suffix_cons_iff, List.suffix_nil] at h
  refine ⟨fun b => ?_, fun hm => ?_, ?_⟩
  · have h1b := h1 b
    have h2b := h2 b
    rcases h with rfl | rfl | rfl | rfl | rfl | rfl | rfl | rfl <;>
      simp [owes, ReplaceAct.owes] <;> omega
  · rcases h with rfl | rfl | rfl | rfl | rfl | rfl | rfl | rfl <;>
      simp [owes, ReplaceAct.owes] at hm ⊢ <;> omega
  · rintro a l rfl hm hne
    rcases h with h | h | h | h | h | h | h | h <;> cases h <;>
      simp [owes, ReplaceAct.owes, ReplaceAct.fbs, hne] at hm ⊢ <;> omega

end Accesses

theorem Firm.act {ι : Type*} [Fintype ι] {s : Traffic ι} {held held' : Addr → ℤ} {a : ReplaceAct}
    (h : Firm held s) (hpos : ∀ fb ∈ a.fbs, 0 < held fb)
    (hc : ∀ b, s.st.refcnt b = held b + owed s.pc b)
    (hheld : ∀ b, held' b = held b - a.owes b) : Firm held' (s.act a) := by
  have htouch : ∀ fb ∈ a.fbs, s.touch fb = s := fun fb hfb => Traffic.touch_eq (h.alive (hpos fb hfb))
  cases a with
  | put fb =>
    show Firm held' ((s.touch fb).put fb)
    rw [htouch fb List.mem_cons_self]
    refine h.put (fun b hb => ?_) fun hone => ?_
    · have hle : held' b = held b - ref fb b := hheld b
      have := ref_nonneg fb b
      omega
    · have hle : held' fb = held fb - ref fb fb := hheld fb
      have hcount := hc fb
      rw [ref_self] at hle
      omega
  | get fb =>
    show Firm held' { s.touch fb with st := getFblock s.st fb }
    rw [htouch fb List.mem_cons_self]
    refine h.restate _ fun b hb => ?_
    have hle : held' b = held b - -ref fb b := hheld b
    by_cases hbf : b = fb
    · rw [hbf]
      exact hpos fb List.mem_cons_self
    · rw [ref_of_ne hbf] at hle
      omega
  | unlink fb | unname fb | selfref fb | enter fb _ =>
    show Firm held' { s.touch fb with st := _ }
    rw [htouch fb List.mem_cons_self]
    refine h.restate _ fun b hb => ?_
    have hle : held' b = held b - 0 := hheld b
    omega
  | swapPriv dst src | rename dst src | swapNotifiers dst src | swapSubscribers dst src =>
    show Firm held' { (s.touch dst).touch src with st := _ }
    rw [htouch dst List.mem_cons_self, htouch src (List.mem_cons_of_mem _ List.mem_cons_self)]
    refine h.restate _ fun b hb => ?_
    have hle : held' b = held b - 0 := hheld b
    omega

/-! ## The replacement -/

theorem Chosen.pos1 {s₀ : State} {m : ReplaceMsg} {fb1 fb2 : Addr} (h : Chosen s₀ m fb1 fb2)
    (hr : Started s₀) : 1 ≤ s₀.refcnt fb1 := (hr _ _ h.lookup1).2

theorem not_enter_before {fb1 fb2 b : Addr} {exch : Bool} {al : Alloc} :
    .enter b al ∉ beforeActs fb1 fb2 exch := by
  cases exch <;> simp [beforeActs]

namespace Replacing

variable {ι : Type*}

/-- The packets inside the first block when its count was taken are no more than those inside the
second one when its count was read, and those inside the second one when its count was written are
less than the references there were. -/
def Smooth (s₀ : State) (s : Replacing ι) : Prop :=
  match s.pc with
  | .taken _ _ _ => s.atTake ≤ s.atRead
  | .after fb1 _ _ _ =>
    s.atTake ≤ s.atRead ∧ (s.atGive : ℤ) < s₀.refcnt fb1 + s.atTake
  | _ => True

/-- What is left to do, the idp of the first block, and what is in the tables. -/
def Rest (s₀ : State) (m : ReplaceMsg) (s : Replacing ι) : Prop :=
  match s.pc with
  | .first | .second _ | .test _ _ => s.base.st.Same s₀
  | .before fb1 fb2 acts =>
    (∃ exch, acts <:+ beforeActs fb1 fb2 exch) ∧ s.base.st.idp fb1 = s₀.idp fb1 ∧
      ∀ idp b, s.base.st.fblmap idp = some b → s₀.fblmap idp = some b
  | .read fb1 _ _ | .taken fb1 _ _ =>
    s.base.st.idp fb1 = s₀.idp fb1 ∧
      ∀ idp b, s.base.st.fblmap idp = some b → s₀.fblmap idp = some b
  | .after fb1 fb2 acts _ =>
    acts <:+ afterActs fb1 fb2 m.al ∧ s.base.st.idp fb1 = s₀.idp fb1 ∧
      ∀ idp b, s.base.st.fblmap idp = some b →
        s₀.fblmap idp = some b ∧ (b = fb1 → .unlink fb1 ∈ acts) ∨ b = fb2
  | .refused fbs _ _ => s.base.st.Same s₀ ∧ ∀ fb ∈ fbs, 1 ≤ s₀.refcnt fb

variable [Fintype ι]

structure Sheltered (s₀ : State) (m : ReplaceMsg) (s : Replacing ι) : Prop where
  underway : s.Underway s₀ m
  rest : s.Rest s₀ m
  firm : s.Smooth s₀ → Firm (s.held s₀) s.base

variable {s₀ : State} {m : ReplaceMsg} {s : Replacing ι} {fb1 fb2 : Addr}

theorem Underway.chosen (h : s.Underway s₀ m)
    (hpc : (∃ acts, s.pc = .before fb1 fb2 acts) ∨ (∃ cnt, s.pc = .read fb1 fb2 cnt) ∨
      (∃ cnt, s.pc = .taken fb1 fb2 cnt) ∨ ∃ acts ret, s.pc = .after fb1 fb2 acts ret) :
    Chosen s₀ m fb1 fb2 := by
  obtain ⟨t, -, hplan⟩ := h.course
  rcases hpc with ⟨_, hpc⟩ | ⟨_, hpc⟩ | ⟨_, hpc⟩ | ⟨_, _, hpc⟩ <;>
    · simp only [Plan, hpc] at hplan
      exact hplan.1

namespace Sheltered

/-- What is in the tables is held. -/
theorem held_of_entry (h : Sheltered s₀ m s) (hr : Started s₀) (hs : s.Smooth s₀) {idp : Idp}
    {b : Addr} (hb : s.base.st.fblmap idp = some b) : 0 < s.held s₀ b := by
  have hrest := h.rest
  have hsame : s.base.st.Same s₀ → 1 ≤ s₀.refcnt b := fun hsame =>
    (hr idp b ((congrFun (congrArg Registry.fblmap hsame.1) idp).symm.trans hb)).2
  cases hpc : s.pc with
  | first =>
    simp only [Rest, hpc] at hrest
    have hpos := hsame hrest
    simp only [held, hpc]
    omega
  | second fb1 =>
    simp only [Rest, hpc] at hrest
    have hpos := hsame hrest
    have h1 := ref_nonneg fb1 b
    simp only [held, hpc]
    omega
  | test fb1 fb2 =>
    simp only [Rest, hpc] at hrest
    have hpos := hsame hrest
    have h1 := ref_nonneg fb1 b
    have h2 := ref_nonneg fb2 b
    simp only [held, hpc]
    omega
  | before fb1 fb2 acts =>
    simp only [Rest, hpc] at hrest
    obtain ⟨⟨exch, hsuf⟩, -, hent⟩ := hrest
    have hpos := (hr idp b (hent idp b hb)).2
    have h1 := ref_nonneg fb1 b
    have h2 := ref_nonneg fb2 b
    have howes := owes_suffix_before hsuf b
    simp only [held, hpc]
    omega
  | read fb1 fb2 cnt =>
    simp only [Rest, hpc] at hrest
    have hpos := (hr idp b (hrest.2 idp b hb)).2
    have h1 := ref_nonneg fb1 b
    have h2 := ref_nonneg fb2 b
    simp only [held, hpc]
    omega
  | taken fb1 fb2 cnt =>
    simp only [Rest, hpc] at hrest
    simp only [Smooth, hpc] at hs
    have hpos := (hr idp b (hrest.2 idp b hb)).2
    have h2 := ref_nonneg fb2 b
    simp only [held, hpc]
    split_ifs <;> omega
  | after fb1 fb2 acts ret =>
    have hchosen := h.underway.chosen (.inr (.inr (.inr ⟨acts, ret, hpc⟩)))
    simp only [Rest, hpc] at hrest
    simp only [Smooth, hpc] at hs
    obtain ⟨hsuf, -, hent⟩ := hrest
    obtain ⟨howes, htwo, -⟩ := owes_suffix_after hsuf
    have hb0 := howes b
    simp only [held, hpc, standing]
    rcases hent idp b hb with ⟨hold, hunlink⟩ | rfl
    · have hpos := (hr idp b hold).2
      split_ifs with hb1 hb2
      · have := htwo (hunlink hb1)
        rw [← hb1] at this
        omega
      · omega
      · omega
    · rw [if_neg hchosen.ne.symm, if_pos rfl]
      omega
  | refused fbs lost ret =>
    simp only [Rest, hpc] at hrest
    have hpos := hsame hrest.1
    simp only [held, hpc]
    omega

/-- The two blocks are held up to the exchange of their counts. -/
theorem held_before (h : Sheltered s₀ m s) (hr : Started s₀) {acts : List ReplaceAct}
    (hpc : s.pc = .before fb1 fb2 acts) {fb : Addr} (hfb : fb = fb1 ∨ fb = fb2) :
    0 < s.held s₀ fb := by
  have hchosen := h.underway.chosen (.inl ⟨acts, hpc⟩)
  have hpos := hchosen.pos1 hr
  have hone := hchosen.alone
  have hrest := h.rest
  simp only [Rest, hpc] at hrest
  obtain ⟨⟨exch, hsuf⟩, -⟩ := hrest
  have howes := owes_suffix_before hsuf fb
  simp only [held, hpc]
  rcases hfb with rfl | rfl
  · rw [ref_self, ref_of_ne hchosen.ne] at howes ⊢
    omega
  · rw [ref_self, ref_of_ne hchosen.ne.symm] at howes ⊢
    omega

/-- After it they are held as long as they are accessed. -/
theorem held_after (h : Sheltered s₀ m s) (hs : s.Smooth s₀) {a : ReplaceAct}
    {acts : List ReplaceAct} {ret : Ret} (hpc : s.pc = .after fb1 fb2 (a :: acts) ret) {fb : Addr}
    (hfb : fb ∈ a.fbs) : 0 < s.held s₀ fb := by
  have hchosen := h.underway.chosen (.inr (.inr (.inr ⟨_, ret, hpc⟩)))
  have hrest := h.rest
  simp only [Rest, hpc] at hrest
  simp only [Smooth, hpc] at hs
  obtain ⟨howes, -, hlast⟩ := owes_suffix_after hrest.1
  have hb0 := howes fb
  simp only [held, hpc, standing]
  rcases (between_after (hrest.1.mem List.mem_cons_self)).fbs fb hfb with rfl | rfl
  · have := hlast a acts rfl hfb hchosen.ne
    rw [if_pos rfl]
    omega
  · rw [if_neg hchosen.ne.symm, if_pos rfl]
    omega

/-- A step that writes to the blocks alone. -/
theorem firm_restate (h : Firm (s.held s₀) s.base) (hu : s.Underway s₀ m) {s' : Replacing ι}
    (hu' : s'.Underway s₀ m) {st : State} (hbase : s'.base = { s.base with st := st })
    (hle : ∀ b, st.refcnt b = s.base.st.refcnt b ∨ 0 < s.held s₀ b) :
    Firm (s'.held s₀) s'.base := by
  have hcount : ∀ b, st.refcnt b = s'.held s₀ b + owed s.base.pc b := by
    intro b
    have hc := hu'.count b
    rw [hbase] at hc
    exact hc
  rw [hbase]
  refine h.restate st fun b hpos => ?_
  rcases hle b with heq | hheld
  · have hc := hu.count b
    have hc' := hcount b
    omega
  · exact hheld

/-- An access before or after the exchange. -/
theorem firm_act (h : Firm (s.held s₀) s.base) (hu : s.Underway s₀ m) {a : ReplaceAct}
    (hpos : ∀ fb ∈ a.fbs, 0 < s.held s₀ fb) {s' : Replacing ι} (hu' : s'.Underway s₀ m)
    (hbase : s'.base = s.base.act a) : Firm (s'.held s₀) s'.base := by
  rw [hbase]
  refine h.act hpos hu.count fun b => ?_
  have hc := hu.count b
  have hc' := hu'.count b
  rw [hbase, act_st, act_pc, refcnt_onState] at hc'
  omega

/-- A lookup counts a block that is in the tables. -/
theorem firm_search (h : Sheltered s₀ m s) (hr : Started s₀) (hs : s.Smooth s₀) {name : Name}
    {none' : ReplacePc} {some' : Addr → ReplacePc}
    (hu' : (s.search name none' some').Underway s₀ m) :
    Firm ((s.search name none' some').held s₀) (s.search name none' some').base := by
  have hfirm := h.firm hs
  cases hl : s.base.st.lookup name with
  | none =>
    have hbase : (s.search name none' some').base = { s.base with st := s.base.st } := by
      unfold Replacing.search
      rw [hl]
    exact firm_restate hfirm h.underway hu' hbase fun _ => .inl rfl
  | some fb =>
    have hheld := h.held_of_entry hr hs hl
    have hbase : (s.search name none' some').base =
        { s.base with st := getFblock s.base.st fb } := by
      unfold Replacing.search
      rw [hl]
      dsimp only
      rw [Traffic.touch_eq (hfirm.alive hheld)]
      rfl
    refine firm_restate hfirm h.underway hu' hbase fun b => ?_
    by_cases hb : b = fb
    · rw [hb]
      exact .inr hheld
    · exact .inl (Function.update_of_ne hb ..)

theorem go_first (h : Sheltered s₀ m s) (hr : Started s₀) (hpc : s.pc = .first) :
    Sheltered s₀ m (s.go m) := by
  have hu := h.underway.go hr
  have hrest := h.rest
  simp only [Rest, hpc] at hrest
  refine ⟨hu, ?_, fun _ => ?_⟩
  · simp only [Replacing.go, hpc, Replacing.search]
    split
    · exact ⟨hrest, fun _ hb => absurd hb List.not_mem_nil⟩
    · split_ifs
      · exact ⟨hrest, fun _ hb => absurd hb List.not_mem_nil⟩
      · exact hrest
  · simp only [Replacing.go, hpc] at hu ⊢
    exact h.firm_search hr (by simp only [Smooth, hpc]) hu

theorem go_second (h : Sheltered s₀ m s) (hr : Started s₀) (hpc : s.pc = .second fb1) :
    Sheltered s₀ m (s.go m) := by
  have hu := h.underway.go hr
  have hrest := h.rest
  obtain ⟨t, -, hplan⟩ := h.underway.course
  simp only [Rest, hpc] at hrest
  simp only [Plan, hpc] at hplan
  have hpos : ∀ fb ∈ [fb1], 1 ≤ s₀.refcnt fb := by
    intro fb hfb
    rw [List.mem_singleton.1 hfb]
    exact (hr _ _ hplan.2.1).2
  refine ⟨hu, ?_, fun _ => ?_⟩
  · simp only [Replacing.go, hpc, Replacing.search]
    split
    · exact ⟨hrest, hpos⟩
    · split_ifs
      · exact ⟨hrest, hpos⟩
      · exact hrest
  · simp only [Replacing.go, hpc] at hu ⊢
    exact h.firm_search hr (by simp only [Smooth, hpc]) hu

theorem go_test (h : Sheltered s₀ m s) (hr : Started s₀) (hpc : s.pc = .test fb1 fb2) :
    Sheltered s₀ m (s.go m) := by
  have hu := h.underway.go hr
  have hrest := h.rest
  obtain ⟨t, -, hplan⟩ := h.underway.course
  simp only [Rest, hpc] at hrest
  simp only [Plan, hpc] at hplan
  obtain ⟨-, ⟨hl1, -⟩, hl2, -⟩ := hplan
  have hpos1 := (hr _ _ hl1).2
  have hpos2 := (hr _ _ hl2).2
  have hheld : 0 < s.held s₀ fb2 := by
    have h1 := ref_nonneg fb1 fb2
    simp only [held, hpc, ref_self]
    omega
  refine ⟨hu, ?_, fun _ => ?_⟩
  · simp only [Replacing.go, hpc]
    split_ifs
    · refine ⟨hrest, fun fb hfb => ?_⟩
      rcases List.mem_cons.1 hfb with rfl | hfb
      · exact hpos1
      · rw [List.mem_singleton.1 hfb]
        exact hpos2
    · exact ⟨⟨_, List.suffix_refl _⟩, congrFun (congrArg Registry.idp hrest.1) fb1,
        fun idp b hb => (congrFun (congrArg Registry.fblmap hrest.1) idp).symm.trans hb⟩
  · have hfirm := h.firm (by simp only [Smooth, hpc])
    have htouch := Traffic.touch_eq (hfirm.alive hheld)
    have hbase : (s.go m).base = { s.base with st := s.base.st } := by
      simp only [Replacing.go, hpc, htouch]
      split_ifs <;> rfl
    exact firm_restate hfirm h.underway hu hbase fun _ => .inl rfl

theorem go_before (h : Sheltered s₀ m s) (hr : Started s₀) {a : ReplaceAct}
    {acts : List ReplaceAct} (hpc : s.pc = .before fb1 fb2 (a :: acts)) :
    Sheltered s₀ m (s.go m) := by
  have hu := h.underway.go hr
  have hchosen := h.underway.chosen (.inl ⟨_, hpc⟩)
  have hrest := h.rest
  simp only [Rest, hpc] at hrest
  obtain ⟨⟨exch, hsuf⟩, hidp, hent⟩ := hrest
  have hmem := hsuf.mem List.mem_cons_self
  have hbetween := between_before hmem
  refine ⟨hu, ?_, fun _ => ?_⟩
  · simp only [Replacing.go, hpc]
    refine ⟨⟨exch, (List.suffix_cons a acts).trans hsuf⟩, ?_, fun idp b hb => ?_⟩
    · rw [act_st, hbetween.idp hchosen.ne, hidp]
    · rw [act_st] at hb
      rcases fblmap_onState hb with ⟨hold, -⟩ | ⟨al, rfl⟩
      · exact hent idp b hold
      · exact absurd hmem not_enter_before
  · have hfirm := h.firm (by simp only [Smooth, hpc])
    have hbase : (s.go m).base = s.base.act a := by simp only [Replacing.go, hpc]
    exact firm_act hfirm h.underway (fun fb hfb => h.held_before hr hpc (hbetween.fbs fb hfb)) hu
      hbase

theorem go_read (h : Sheltered s₀ m s) (hr : Started s₀) (hpc : s.pc = .before fb1 fb2 []) :
    Sheltered s₀ m (s.go m) := by
  have hu := h.underway.go hr
  have hrest := h.rest
  simp only [Rest, hpc] at hrest
  refine ⟨hu, ?_, fun _ => ?_⟩
  · simp only [Replacing.go, hpc]
    exact hrest.2
  · have hfirm := h.firm (by simp only [Smooth, hpc])
    have htouch := Traffic.touch_eq (hfirm.alive (h.held_before hr hpc (.inr rfl)))
    have hbase : (s.go m).base = { s.base with st := s.base.st } := by
      simp only [Replacing.go, hpc, htouch]
    exact firm_restate hfirm h.underway hu hbase fun _ => .inl rfl

theorem go_take (h : Sheltered s₀ m s) (hr : Started s₀) {cnt : ℤ}
    (hpc : s.pc = .read fb1 fb2 cnt) : Sheltered s₀ m (s.go m) := by
  have hu := h.underway.go hr
  have hchosen := h.underway.chosen (.inr (.inl ⟨_, hpc⟩))
  have hpos := hchosen.pos1 hr
  have hrest := h.rest
  simp only [Rest, hpc] at hrest
  have hheld : 0 < s.held s₀ fb1 := by
    simp only [held, hpc, ref_self, ref_of_ne hchosen.ne]
    omega
  refine ⟨hu, ?_, fun _ => ?_⟩
  · simp only [Replacing.go, hpc]
    exact hrest
  · have hfirm := h.firm (by simp only [Smooth, hpc])
    have htouch := Traffic.touch_eq (hfirm.alive hheld)
    have hbase : (s.go m).base = { s.base with
        st := { s.base.st with refcnt := Function.update s.base.st.refcnt fb1 cnt } } := by
      simp only [Replacing.go, hpc, htouch]
    refine firm_restate hfirm h.underway hu hbase fun b => ?_
    by_cases hb : b = fb1
    · rw [hb]
      exact .inr hheld
    · exact .inl (Function.update_of_ne hb ..)

theorem go_give (h : Sheltered s₀ m s) (hr : Started s₀) {cnt : ℤ}
    (hpc : s.pc = .taken fb1 fb2 cnt) : Sheltered s₀ m (s.go m) := by
  have hu := h.underway.go hr
  have hchosen := h.underway.chosen (.inr (.inr (.inl ⟨_, hpc⟩)))
  have hone := hchosen.alone
  have hrest := h.rest
  simp only [Rest, hpc] at hrest
  have hheld : 0 < s.held s₀ fb2 := by
    simp only [held, hpc, if_neg hchosen.ne.symm, ref_self]
    omega
  refine ⟨hu, ?_, fun hs => ?_⟩
  · simp only [Replacing.go, hpc]
    refine ⟨List.suffix_refl _, hrest.1, fun idp b hb => .inl ⟨hrest.2 idp b hb, fun _ => ?_⟩⟩
    simp [afterActs]
  · have hsmooth : s.Smooth s₀ := by
      simp only [Replacing.go, hpc, Smooth] at hs
      simp only [Smooth, hpc]
      exact hs.1
    have hfirm := h.firm hsmooth
    have htouch := Traffic.touch_eq (hfirm.alive hheld)
    have hbase : (s.go m).base = { s.base with
        st := { s.base.st with refcnt := Function.update s.base.st.refcnt fb2 cnt } } := by
      simp only [Replacing.go, hpc, htouch]
    refine firm_restate hfirm h.underway hu hbase fun b => ?_
    by_cases hb : b = fb2
    · rw [hb]
      exact .inr hheld
    · exact .inl (Function.update_of_ne hb ..)

theorem go_after (h : Sheltered s₀ m s) (hr : Started s₀) {a : ReplaceAct}
    {acts : List ReplaceAct} {ret : Ret} (hpc : s.pc = .after fb1 fb2 (a :: acts) ret) :
    Sheltered s₀ m (s.go m) := by
  have hu := h.underway.go hr
  have hchosen := h.underway.chosen (.inr (.inr (.inr ⟨_, _, hpc⟩)))
  have hrest := h.rest
  simp only [Rest, hpc] at hrest
  obtain ⟨hsuf, hidp, hent⟩ := hrest
  have hbetween := between_after (hsuf.mem List.mem_cons_self)
  refine ⟨hu, ?_, fun hs => ?_⟩
  · simp only [Replacing.go, hpc]
    refine ⟨(List.suffix_cons a acts).trans hsuf, ?_, fun idp b hb => ?_⟩
    · rw [act_st, hbetween.idp hchosen.ne, hidp]
    · rw [act_st] at hb
      rcases fblmap_onState hb with ⟨hold, hne⟩ | ⟨al, rfl⟩
      · rcases hent idp b hold with ⟨hstart, hunlink⟩ | hb2
        · refine .inl ⟨hstart, fun hb1 => ?_⟩
          rcases List.mem_cons.1 (hunlink hb1) with ha | hmem
          · -- the first block was there under its own idp only
            subst hb1
            refine absurd ?_ (hne b ha.symm)
            rw [hidp]
            exact (hr idp b hstart).1.symm
          · exact hmem
        · exact .inr hb2
      · exact .inr hbetween
  · have hsmooth : s.Smooth s₀ := by
      simp only [Replacing.go, hpc, Smooth] at hs
      simpa only [Smooth, hpc] using hs
    have hbase : (s.go m).base = s.base.act a := by simp only [Replacing.go, hpc]
    exact firm_act (h.firm hsmooth) h.underway (fun fb hfb => h.held_after hsmooth hpc hfb) hu hbase

theorem go_refused (h : Sheltered s₀ m s) (hr : Started s₀) {fb : Addr} {fbs lost : List Addr}
    {ret : Ret} (hpc : s.pc = .refused (fb :: fbs) lost ret) : Sheltered s₀ m (s.go m) := by
  have hu := h.underway.go hr
  have hrest := h.rest
  simp only [Rest, hpc] at hrest
  obtain ⟨hsame, hpos⟩ := hrest
  refine ⟨hu, ?_, fun _ => ?_⟩
  · simp only [Replacing.go, hpc]
    exact ⟨⟨(registry_putFblock ..).trans hsame.1, (lists_putFblock ..).trans hsame.2⟩,
      fun b hb => hpos b (List.mem_cons_of_mem _ hb)⟩
  · have hfirm := h.firm (by simp only [Smooth, hpc])
    have hbase : (s.go m).base = s.base.act (.put fb) := by
      simp only [Replacing.go, hpc]
      rfl
    refine firm_act hfirm h.underway (fun b hb => ?_) hu hbase
    obtain rfl := List.mem_singleton.1 hb
    have := hpos b List.mem_cons_self
    simp only [held, hpc]
    omega

/-- **Step.** -/
theorem go (h : Sheltered s₀ m s) (hr : Started s₀) : Sheltered s₀ m (s.go m) := by
  cases hpc : s.pc with
  | first => exact h.go_first hr hpc
  | second fb1 => exact h.go_second hr hpc
  | test fb1 fb2 => exact h.go_test hr hpc
  | before fb1 fb2 acts =>
    cases acts with
    | nil => exact h.go_read hr hpc
    | cons a acts => exact h.go_before hr hpc
  | read fb1 fb2 cnt => exact h.go_take hr hpc
  | taken fb1 fb2 cnt => exact h.go_give hr hpc
  | after fb1 fb2 acts ret =>
    cases acts with
    | nil =>
      simp only [Replacing.go, hpc]
      exact h
    | cons a acts => exact h.go_after hr hpc
  | refused fbs lost ret =>
    cases fbs with
    | nil =>
      simp only [Replacing.go, hpc]
      exact h
    | cons fb fbs => exact h.go_refused hr hpc

theorem packet [DecidableEq ι] (h : Sheltered s₀ m s) (hr : Started s₀) {step : LifeStep ι}
    (hcall : ∀ i name, step ≠ .call i name) (hok : step.Possible s.base) :
    Sheltered s₀ m { s with base := step.exec s.base } := by
  have hmove := packetMove h.underway.packets hcall hok
  obtain ⟨hreg, hlists⟩ := hmove.shape
  refine ⟨h.underway.packet hcall hok, ?_, fun hs => ?_⟩
  · have hmap : (step.exec s.base).st.fblmap = s.base.st.fblmap := congrArg Registry.fblmap hreg
    have hidp : (step.exec s.base).st.idp = s.base.st.idp := congrArg Registry.idp hreg
    have hrest := h.rest
    cases hpc : s.pc <;> simp only [Rest, hpc, State.Same, hmap, hidp, hreg, hlists] at hrest ⊢ <;>
      exact hrest
  · exact hmove.firm (h.firm hs) h.underway.count fun idp b hb => h.held_of_entry hr hs hb

end Sheltered

end Replacing

section Schedules

variable {ι : Type*} [Fintype ι] [DecidableEq ι]

omit [DecidableEq ι] in
theorem sheltered_init (s₀ : State) (m : ReplaceMsg) :
    (Replacing.init s₀ : Replacing ι).Sheltered s₀ m where
  underway := .init s₀ m
  rest := ⟨rfl, rfl⟩
  firm := fun _ => by
    refine ⟨fun i b hb => ?_, fun _ _ => rfl, rfl⟩
    cases hb

/-- **Run.** -/
theorem sheltered_run {s₀ : State} {m : ReplaceMsg} (hr : Started s₀)
    {steps : List (ReplaceStep ι)}
    (hok : Transition.Allowed (ReplaceStep.exec m) ReplaceStep.Possible (Replacing.init s₀) steps) :
    (runReplacing s₀ m steps).Sheltered s₀ m := by
  refine Transition.invariant_of_allowed (fun s step h hstep => ?_) (sheltered_init s₀ m) hok
  cases step with
  | go => exact h.go hr
  | packet step =>
    obtain ⟨hcall, hpossible⟩ := ReplaceStep.possible_packet hstep
    exact h.packet hr hcall hpossible

end Schedules

/-- A packet has loaded the first block before it is replaced, and goes through it afterwards. -/
def throughRun : List (ReplaceStep Unit) :=
  [.packet (.packet ()), .packet (.lookup () 1)] ++ List.replicate 20 .go ++
    [.packet (.go ()), .packet (.go ()), .packet (.done ())] ++ List.replicate 7 .go

theorem throughRun_allowed : Transition.Allowed
    (ReplaceStep.exec ⟨nameA, nameB, false, .ok⟩) ReplaceStep.Possible
    (Replacing.init (run (State.init oneCpu) twoDummies)) throughRun :=
  ⟨trivial, trivial, trivial, trivial, trivial, trivial, trivial, trivial, trivial, trivial, trivial,
    trivial, trivial, trivial, trivial, trivial, trivial, trivial, trivial, trivial, trivial, trivial,
    trivial, trivial, trivial, trivial, trivial, trivial, trivial, trivial, trivial, trivial, trivial⟩

/-- With a packet inside the first block at the exchange, its last reference is put before the
replacement itself is done with it. -/
example :
    (runReplacing (run (State.init oneCpu) twoDummies) ⟨nameA, nameB, false, .ok⟩
      ([.packet (.packet ()), .packet (.lookup () 1), .packet (.go ())] ++ List.replicate 20 .go ++
        [.packet (.go ()), .packet (.done ()), .go, .go, .go, .go, .packet (.callback 0), .go,
          .go])).base.fault = true := by
  decide

end Lana
