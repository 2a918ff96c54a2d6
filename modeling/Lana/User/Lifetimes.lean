import Lana.User.Traffic

/-!
# The lives of blocks beside packets

A lookup raises a count whatever it is, so a packet may take up a block whose last reference has
just been put.  Such a block is released once more: no thread touches it after it is freed, but its
second callback does, and frees it again.  Every other block is released once (`lifetimes_exact`).
This takes that a removal counts no block that has been released, and does not pass its test on a
block that has left the tables: two removals that do leave a count of -1.

1. A thread that has seen a block is waited for (`Traffic.Shields`), and what has been released is
   kept in books (`Books`).
2. Each step of a thread, and each callback, keeps both (`Living.exec`).
-/

namespace Lana

open State Interleave

/-- The block is not freed, and the callbacks that would free it wait for the thread. -/
def Traffic.Shields {ι : Type*} (s : Traffic ι) (i : ι) (b : Addr) : Prop :=
  b ∉ s.freed ∧ ∀ w, (b, w) ∈ s.waiting → w i = true

/-- The books on releases: a block in the tables has not been released; each release of a block but
one goes back to a packet that has counted the block up from 0, and so does each callback that has
found its block freed. -/
structure Books {ι : Type*} (s₀ : State) (s : Traffic ι) : Prop where
  entered : ∀ b, s.st.Enters b → s.releases b = 0
  posted : ∀ b, s.releases b ≠ 0 → s₀.Enters b ∧ s₀.factory b ≠ none
  ledger : ∀ b, s₀.Enters b → s₀.factory b ≠ none →
    s.releases b + (if 0 < s.st.refcnt b then 1 else 0) = 1 + s.regained.count b
  refreed : ∀ b ∈ s.refreed, b ∈ s.regained

/-- What keeps a block from being freed: a thread that has seen it in its section is waited for, and
a block that a thread keeps outside has not been released. -/
structure Living {ι : Type*} [Fintype ι] (s₀ : State) (s : Traffic ι) : Prop where
  counted : Counted s₀ s.st s.pc
  seen : ∀ i b, (s.pc i).seen = some b → s.Shields i b
  kept : ∀ i, ∀ b ∈ (s.pc i).kept, s.releases b = 0
  books : Books s₀ s
  fault : s.fault = false

section Lives

variable {ι : Type*} {s₀ : State} {s : Traffic ι} {i : ι} {b fb : Addr} {p : LifePc}

theorem LifePc.kept_subset (p : LifePc) (hb : b ∈ p.kept) : b ∈ p.refs := by
  cases p <;> first | exact hb | cases hb

theorem LifePc.inSection_of_seen (hb : p.seen = some b) : p.inSection = true := by
  cases p <;> first | rfl | cases hb

theorem Traffic.touch_eq (h : fb ∉ s.freed) : s.touch fb = s := by
  unfold Traffic.touch
  rw [decide_eq_false h, Bool.or_false]

theorem Traffic.not_mem_of_releases (h : s.releases b = 0) :
    b ∉ s.freed ∧ ∀ w, (b, w) ∉ s.waiting := by
  have hw : (s.waiting.map Prod.fst).count b = 0 := by
    unfold Traffic.releases at h
    omega
  have hf : s.freed.count b = 0 := by
    unfold Traffic.releases at h
    omega
  exact ⟨List.count_eq_zero.1 hf, fun w hmem => List.count_eq_zero.1 hw (List.mem_map_of_mem hmem)⟩

theorem Traffic.releases_put (s : Traffic ι) (fb b : Addr) :
    (s.put fb).releases b =
      s.releases b + if b = fb ∧ s.st.refcnt fb = 1 ∧ s.st.factory fb ≠ none then 1 else 0 := by
  unfold Traffic.releases Traffic.put
  dsimp only
  by_cases hrel : s.st.refcnt fb = 1 ∧ s.st.factory fb ≠ none
  · rw [if_pos hrel, List.map_append, List.count_append]
    by_cases hb : b = fb
    · subst hb
      rw [if_pos ⟨rfl, hrel⟩]
      simp
      omega
    · rw [if_neg fun h => hb h.1]
      simp [List.count_cons_of_ne (Ne.symm hb)]
  · rw [if_neg hrel, if_neg fun h => hrel h.2]
    rfl

/-- A callback that runs was posted before. -/
theorem Traffic.releases_free {n : ℕ} {w : ι → Bool} (hn : s.waiting[n]? = some (fb, w))
    (b : Addr) : (s.freeFblockRcu n fb).releases b = s.releases b := by
  obtain ⟨hlt, hget⟩ := List.getElem?_eq_some_iff.1 hn
  have hperm : ((fb, w) :: s.waiting.eraseIdx n).Perm s.waiting := by
    rw [← hget]
    exact List.getElem_cons_eraseIdx_perm hlt
  have hcount := (hperm.map Prod.fst).count_eq b
  show ((s.waiting.eraseIdx n).map Prod.fst).count b + (fb :: s.freed).count b = _
  unfold Traffic.releases
  rw [← hcount, List.map_cons, List.count_cons, List.count_cons]
  dsimp only
  omega

/-! ### Blocks that threads have seen -/

namespace Traffic

theorem shields_of_releases (h : s.releases b = 0) (i : ι) : s.Shields i b := by
  obtain ⟨hfreed, hwait⟩ := not_mem_of_releases h
  exact ⟨hfreed, fun w hw => absurd hw (hwait w)⟩

/-- A callback that is posted waits for the threads in a section. -/
theorem Shields.put (h : s.Shields i b) (hi : (s.pc i).inSection = true) (fb : Addr) :
    (s.put fb).Shields i b := by
  refine ⟨h.1, fun w hw => ?_⟩
  unfold Traffic.put at hw
  dsimp only at hw
  split_ifs at hw
  · rcases List.mem_append.1 hw with hw | hw
    · exact h.2 w hw
    · obtain ⟨-, rfl⟩ := Prod.mk.inj (List.mem_singleton.1 hw)
      exact hi
  · exact h.2 w hw

/-- A callback that runs has not waited for the thread. -/
theorem Shields.free (h : s.Shields i b) {n : ℕ} {w : ι → Bool} (hn : s.waiting[n]? = some (fb, w))
    (hi : w i = false) : (s.freeFblockRcu n fb).Shields i b := by
  refine ⟨fun hcons => ?_, fun w' hw' => h.2 w' (List.mem_of_mem_eraseIdx hw')⟩
  rcases List.mem_cons.1 hcons with rfl | hcons
  · have htrue := h.2 w (List.mem_of_getElem? hn)
    rw [hi] at htrue
    cases htrue
  · exact h.1 hcons

section Goto

variable [DecidableEq ι]

theorem releases_goto (s : Traffic ι) (i : ι) (p : LifePc) (b : Addr) :
    (s.goto i p).releases b = s.releases b := by
  unfold Traffic.releases Traffic.goto
  split_ifs
  · rfl
  · simp only [List.map_map]
    rfl

/-- For the other threads, and for a thread that stays in its section, nothing changes. -/
theorem Shields.goto {j : ι} (h : s.Shields j b) (hj : j ≠ i ∨ p.inSection = true) :
    (s.goto i p).Shields j b := by
  refine ⟨h.1, fun w hw => ?_⟩
  unfold Traffic.goto at hw
  dsimp only at hw
  split_ifs at hw with hp
  · exact h.2 w hw
  · obtain ⟨⟨b', w'⟩, hmem, e⟩ := List.mem_map.1 hw
    obtain ⟨rfl, rfl⟩ := Prod.mk.inj e
    rw [Function.update_of_ne (hj.resolve_right hp)]
    exact h.2 w' hmem

theorem seen_goto (hp : ∀ b, p.seen = some b → s.Shields i b)
    (hothers : ∀ j b, j ≠ i → (s.pc j).seen = some b → s.Shields j b) (j : ι) (b : Addr)
    (hj : ((s.goto i p).pc j).seen = some b) : (s.goto i p).Shields j b := by
  change (Function.update s.pc i p j).seen = some b at hj
  by_cases hji : j = i
  · subst hji
    rw [Function.update_self] at hj
    exact (hp b hj).goto (.inr (LifePc.inSection_of_seen hj))
  · rw [Function.update_of_ne hji] at hj
    exact (hothers j b hji hj).goto (.inl hji)

theorem kept_goto {Q : Addr → Prop} (hp : ∀ b ∈ p.kept, Q b)
    (hothers : ∀ j, j ≠ i → ∀ b ∈ (s.pc j).kept, Q b) (j : ι) :
    ∀ b ∈ ((s.goto i p).pc j).kept, Q b := by
  show ∀ b ∈ (Function.update s.pc i p j).kept, Q b
  by_cases hji : j = i
  · subst hji
    rw [Function.update_self]
    exact hp
  · rw [Function.update_of_ne hji]
    exact hothers j hji

end Goto

end Traffic

/-! ### The books -/

namespace Books

/-- The books depend on the tables, the counts and the releases. -/
theorem congr (h : Books s₀ s) {u : Traffic ι} (hidp : u.st.idp = s.st.idp)
    (hmap : u.st.fblmap = s.st.fblmap) (href : u.st.refcnt = s.st.refcnt)
    (hrel : ∀ b, u.releases b = s.releases b) (hreg : u.regained = s.regained)
    (hre : u.refreed = s.refreed) : Books s₀ u where
  entered := fun b hb => by
    unfold State.Enters at hb
    rw [hidp, hmap] at hb
    rw [hrel]
    exact h.entered b hb
  posted := fun b hb => h.posted b (hrel b ▸ hb)
  ledger := fun b hb hf => by
    rw [hrel, href, hreg]
    exact h.ledger b hb hf
  refreed := by
    rw [hre, hreg]
    exact h.refreed

theorem goto [DecidableEq ι] (h : Books s₀ s) (i : ι) (p : LifePc) : Books s₀ (s.goto i p) :=
  h.congr rfl rfl rfl (Traffic.releases_goto s i p) rfl rfl

/-- A block is counted; a count of 0 is recorded. -/
theorem get (h : Books s₀ s) (hnonneg : 0 ≤ s.st.refcnt fb) {r : List Addr}
    (hsub : ∀ b ∈ s.regained, b ∈ r)
    (hreg : s₀.factory fb ≠ none → r.count fb =
      s.regained.count fb + if s.st.refcnt fb = 0 then 1 else 0)
    (hother : ∀ b, b ≠ fb → r.count b = s.regained.count b) :
    Books s₀ { s.get fb with regained := r } := by
  refine ⟨h.entered, h.posted, fun b hb hf => ?_, fun b hb => hsub b (h.refreed b hb)⟩
  have hled := h.ledger b hb hf
  show s.releases b + (if 0 < (getFblock s.st fb).refcnt b then 1 else 0) = 1 + r.count b
  rw [getFblock_eq, addRefs_refcnt, ref_apply]
  by_cases hbf : b = fb
  · subst hbf
    rw [hreg hf, if_pos rfl]
    split_ifs at hled ⊢ <;> omega
  · rw [hother b hbf, if_neg hbf, add_zero]
    exact hled

/-- A reference is put, the last one for a block that is in no table. -/
theorem put (h : Books s₀ s) (hfac : s.st.factory = s₀.factory) (hfb : s₀.Enters fb)
    (hpos : 1 ≤ s.st.refcnt fb) (hlast : s.st.refcnt fb = 1 → ¬ s.st.Enters fb) :
    Books s₀ (s.put fb) := by
  have hreg := registry_putFblock s.st fb
  have hrefcnt : ∀ b, (putFblock s.st fb).refcnt b = s.st.refcnt b - if b = fb then 1 else 0 := by
    intro b
    rw [refcnt_putFblock, Pi.sub_apply, ref_apply]
  refine ⟨fun b hb => ?_, fun b hb => ?_, fun b hb hf => ?_, h.refreed⟩
  · have hidp : (putFblock s.st fb).idp = s.st.idp := congrArg Registry.idp hreg
    have hmap : (putFblock s.st fb).fblmap = s.st.fblmap := congrArg Registry.fblmap hreg
    change (putFblock s.st fb).Enters b at hb
    unfold State.Enters at hb
    rw [hidp, hmap] at hb
    rw [Traffic.releases_put, h.entered b hb, if_neg]
    rintro ⟨rfl, hone, -⟩
    exact hlast hone hb
  · rw [Traffic.releases_put] at hb
    split_ifs at hb with hrel
    · obtain ⟨rfl, -, hf⟩ := hrel
      exact ⟨hfb, hfac ▸ hf⟩
    · exact h.posted b hb
  · have hled := h.ledger b hb hf
    rw [Traffic.releases_put]
    show _ + (if 0 < (putFblock s.st fb).refcnt b then 1 else 0) = 1 + s.regained.count b
    rw [hrefcnt]
    by_cases hbf : b = fb
    · subst hbf
      rw [← hfac] at hf
      by_cases hone : s.st.refcnt b = 1
      · rw [if_pos ⟨rfl, hone, hf⟩, hone, if_pos rfl, if_neg (by omega)]
        rw [hone, if_pos (by omega)] at hled
        omega
      · rw [if_neg fun hc => hone hc.2.1, if_pos rfl, if_pos (by omega)]
        rw [if_pos (by omega)] at hled
        omega
    · rw [if_neg fun hc => hbf hc.1, if_neg hbf, sub_zero]
      exact hled

/-- A callback that finds its block freed is the second one for it. -/
theorem free (h : Books s₀ s) {n : ℕ} {w : ι → Bool} (hn : s.waiting[n]? = some (fb, w)) :
    Books s₀ (s.freeFblockRcu n fb) := by
  have hrel := Traffic.releases_free hn
  refine ⟨fun b hb => ?_, fun b hb => h.posted b (hrel b ▸ hb), fun b hb hf => ?_, fun b hb => ?_⟩
  · rw [hrel]
    exact h.entered b hb
  · rw [hrel]
    exact h.ledger b hb hf
  · change b ∈ (if fb ∈ s.freed then fb :: s.refreed else s.refreed) at hb
    split_ifs at hb with hfreed
    · rcases List.mem_cons.1 hb with rfl | hb
      · have hw : 0 < (s.waiting.map Prod.fst).count b :=
          List.count_pos_iff.2 (List.mem_map_of_mem (List.mem_of_getElem? hn))
        have hf : 0 < s.freed.count b := List.count_pos_iff.2 hfreed
        have htwo : 2 ≤ s.releases b := by
          unfold Traffic.releases
          omega
        obtain ⟨hent, hfac⟩ := h.posted b (by omega)
        have hled := h.ledger b hent hfac
        have hcount : 0 < s.regained.count b := by omega
        exact List.count_pos_iff.1 hcount
      · exact h.refreed b hb
    · exact h.refreed b hb

end Books

variable [Fintype ι]

theorem living_init (hr : Started s₀) : Living s₀ (Traffic.init s₀ : Traffic ι) where
  counted := counted_init s₀
  seen := by
    rintro i b ⟨⟩
  kept := by
    rintro i b ⟨⟩
  books := by
    refine ⟨fun _ _ => rfl, fun b hb => absurd rfl hb, fun b hb _ => ?_,
      fun b hb => absurd hb List.not_mem_nil⟩
    have hpos : 0 < s₀.refcnt b := hr.pos hb
    show 0 + 0 + (if 0 < s₀.refcnt b then 1 else 0) = 1 + 0
    rw [if_pos hpos]
  fault := rfl

namespace Living

/-- A block that a thread has in hand is not freed. -/
theorem alive (h : Living s₀ s) (hb : (s.pc i).seen = some b ∨ b ∈ (s.pc i).kept) :
    b ∉ s.freed := by
  rcases hb with hb | hb
  · exact (h.seen i b hb).1
  · exact (Traffic.not_mem_of_releases (h.kept i b hb)).1

variable [DecidableEq ι]

/-- A thread goes on with the references it has. -/
theorem pass (h : Living s₀ s) (hrefs : ∀ b, p.refs.count b = (s.pc i).refs.count b)
    (hseen : ∀ b, p.seen = some b → s₀.Enters b ∧ s.Shields i b)
    (hkept : ∀ b ∈ p.kept, s.releases b = 0)
    (hrem : ∀ b, p = .remove b → s.st.Enters b ∧ s₀.refcnt b = 1 ∧ ∀ j, s.pc j ≠ .remove b) :
    Living s₀ (s.goto i p) := by
  have hknown : ∀ b, p.seen = some b ∨ b ∈ p.refs → s₀.Enters b := by
    rintro b (hb | hb)
    · exact (hseen b hb).1
    · rw [← List.count_pos_iff, hrefs, List.count_pos_iff] at hb
      exact h.counted.known i b (.inr hb)
  refine ⟨h.counted.move rfl rfl rfl (fun b => by rw [hrefs]; rfl) hknown hrem,
    Traffic.seen_goto (fun b hb => (hseen b hb).2) fun j b _ => h.seen j b, ?_, h.books.goto i p,
    h.fault⟩
  simp only [Traffic.releases_goto]
  exact Traffic.kept_goto hkept fun j _ => h.kept j

/-- A thread counts the block it has seen. -/
theorem take (h : Living s₀ s) (hsee : (s.pc i).seen = some fb)
    (hold : (s.pc i).refs = []) (hnew : p.refs = [fb]) (hpsee : ∀ b, p.seen = some b → b = fb)
    (hkept : ∀ b ∈ p.kept, s.releases b = 0) (hnot : ∀ b, p ≠ .remove b) {r : List Addr}
    (hbooks : Books s₀ { s.get fb with regained := r }) :
    Living s₀ { (s.get fb).goto i p with regained := r } := by
  have hfb := h.counted.known i fb (.inl hsee)
  have hcount : ∀ b, (getFblock s.st fb).refcnt b + (s.pc i).refs.count b =
      s.st.refcnt b + p.refs.count b := by
    intro b
    rw [getFblock_eq, addRefs_refcnt, ref_apply, hold, hnew]
    by_cases hb : b = fb
    · subst hb
      simp
    · rw [if_neg hb, List.count_cons_of_ne (Ne.symm hb)]
      simp
  have hknown : ∀ b, p.seen = some b ∨ b ∈ p.refs → s₀.Enters b := by
    rintro b (hb | hb)
    · rw [hpsee b hb]
      exact hfb
    · rw [hnew, List.mem_singleton] at hb
      rw [hb]
      exact hfb
  have hseen : ∀ j b, (((s.get fb).goto i p).pc j).seen = some b →
      ((s.get fb).goto i p).Shields j b := by
    refine Traffic.seen_goto (fun b hb => ?_) fun j b _ => h.seen j b
    rw [hpsee b hb]
    exact h.seen i fb hsee
  have hkeep : ∀ j, ∀ b ∈ (((s.get fb).goto i p).pc j).kept,
      ((s.get fb).goto i p).releases b = 0 := by
    simp only [Traffic.releases_goto]
    exact Traffic.kept_goto hkept fun j _ => h.kept j
  exact ⟨h.counted.move rfl rfl rfl hcount hknown fun b hb => absurd hb (hnot b), hseen, hkeep,
    hbooks.goto i p, h.fault⟩

/-- A thread puts a reference. -/
theorem drop (h : Living s₀ s) (hr : Started s₀) (hold : (s.pc i).refs = fb :: p.refs)
    (hpsee : p.seen = none) (hkept : ∀ b ∈ p.kept, b ∈ (s.pc i).kept)
    (hnot : ∀ b, p ≠ .remove b) : Living s₀ ((s.put fb).goto i p) := by
  have hmem : fb ∈ (s.pc i).refs := by
    rw [hold]
    exact List.mem_cons_self
  have hfb := h.counted.known i fb (.inr hmem)
  have hlast := h.counted.last hr hold
  have hreg := registry_putFblock s.st fb
  have hcount : ∀ b, (putFblock s.st fb).refcnt b + (s.pc i).refs.count b =
      s.st.refcnt b + p.refs.count b := by
    intro b
    rw [refcnt_putFblock, Pi.sub_apply, ref_apply, hold]
    by_cases hb : b = fb
    · subst hb
      rw [if_pos rfl, List.count_cons_self]
      push_cast
      omega
    · rw [if_neg hb, List.count_cons_of_ne (Ne.symm hb), sub_zero]
  have hknown : ∀ b, p.seen = some b ∨ b ∈ p.refs → s₀.Enters b := by
    rintro b (hb | hb)
    · rw [hpsee] at hb
      cases hb
    · refine h.counted.known i b (.inr ?_)
      rw [hold]
      exact List.mem_cons_of_mem fb hb
  -- what another thread or this one still keeps is not released with the last reference
  have hkeep : ∀ b, s.releases b = 0 → (s.st.refcnt fb = 1 → b ≠ fb) →
      (s.put fb).releases b = 0 := by
    intro b hb hne
    rw [Traffic.releases_put, hb, if_neg]
    rintro ⟨rfl, hone, -⟩
    exact hne hone rfl
  refine ⟨h.counted.move (congrArg Registry.idp hreg) (congrArg Registry.factory hreg)
    (congrArg Registry.fblmap hreg) hcount hknown fun b hb => absurd hb (hnot b),
    Traffic.seen_goto (fun b hb => ?_) (fun j b _ hj => ?_), ?_, ?_, h.fault⟩
  · rw [hpsee] at hb
    cases hb
  · exact (h.seen j b hj).put (LifePc.inSection_of_seen hj) fb
  · simp only [Traffic.releases_goto]
    refine Traffic.kept_goto (fun b hb => ?_) fun j hj b hb => ?_
    · refine hkeep b (h.kept i b (hkept b hb)) ?_
      rintro hone rfl
      exact (hlast hone).2.1 (p.kept_subset hb)
    · refine hkeep b (h.kept j b hb) ?_
      rintro hone rfl
      exact (hlast hone).1 j hj ((s.pc j).kept_subset hb)
  · exact (h.books.put h.counted.factory hfb (h.counted.pos_of_mem hr hmem) fun hone =>
      (hlast hone).2.2).goto i p

/-- The block leaves `fblmap`. -/
theorem takeOut (h : Living s₀ s) (hi : s.pc i = .remove fb) :
    Living s₀ { s.goto i (.unname fb) with st := radixTreeDelete s.st (s.st.idp fb) } := by
  have hzero := h.books.entered fb (h.counted.removing i fb hi).1
  have hseen : ∀ j b, ((s.goto i (.unname fb)).pc j).seen = some b →
      (s.goto i (.unname fb)).Shields j b :=
    Traffic.seen_goto (fun b hb => by cases hb) fun j b _ => h.seen j b
  have hkept : ∀ j, ∀ b ∈ ((s.goto i (.unname fb)).pc j).kept,
      (s.goto i (.unname fb)).releases b = 0 := by
    simp only [Traffic.releases_goto]
    refine Traffic.kept_goto (fun b hb => ?_) fun j _ => h.kept j
    obtain rfl : b = fb := by simpa [LifePc.kept] using hb
    exact hzero
  have hbooks := h.books.goto i (.unname fb)
  refine ⟨h.counted.takeOut hi, hseen, hkept, ⟨fun b hb => ?_, hbooks.posted, hbooks.ledger,
    hbooks.refreed⟩, h.fault⟩
  have hb' : Function.update s.st.fblmap (s.st.idp fb) none (s.st.idp b) = some b := hb
  rw [Function.update_apply] at hb'
  split_ifs at hb'
  exact hbooks.entered b hb'

omit [DecidableEq ι] in
/-- A step that leaves the blocks and `fblmap` as they are. -/
theorem restate (h : Living s₀ s) {st : State} (hidp : st.idp = s.st.idp)
    (hfac : st.factory = s.st.factory) (hmap : st.fblmap = s.st.fblmap)
    (href : st.refcnt = s.st.refcnt) : Living s₀ { s with st := st } := by
  have henters : ∀ b, st.Enters b ↔ s.st.Enters b := by
    intro b
    unfold State.Enters
    rw [hidp, hmap]
  refine ⟨⟨hidp.trans h.counted.idp, hfac.trans h.counted.factory, fun idp b hb => ?_, fun b => ?_,
    h.counted.known, fun j b hj => ?_, fun b hb hb' => ?_⟩, h.seen, h.kept,
    h.books.congr hidp hmap href (fun _ => rfl) rfl rfl, h.fault⟩
  · exact h.counted.entry idp b (by rwa [hmap] at hb)
  · rw [tableRef_congr (henters b), href]
    exact h.counted.count b
  · obtain ⟨hb, hrest⟩ := h.counted.removing j b hj
    exact ⟨(henters b).2 hb, hrest⟩
  · exact h.counted.lone b hb fun hl => hb' ((henters b).2 hl)

omit [DecidableEq ι] in
/-- A callback frees a block. -/
theorem callback (h : Living s₀ s) {n : ℕ} {w : ι → Bool} (hn : s.waiting[n]? = some (fb, w))
    (hnone : ∀ i, w i = false) : Living s₀ (s.freeFblockRcu n fb) := by
  refine ⟨h.counted, fun j b hj => (h.seen j b hj).free hn (hnone j), fun j b hj => ?_,
    h.books.free hn, h.fault⟩
  rw [Traffic.releases_free hn]
  exact h.kept j b hj

/-! ### Steps of a thread -/

omit [DecidableEq ι] in
theorem nonneg (h : Living s₀ s) (hr : Started s₀) (hsee : (s.pc i).seen = some fb) :
    0 ≤ s.st.refcnt fb := by
  have := h.counted.owed_le hr (h.counted.known i fb (.inl hsee))
  omega

theorem go_found (h : Living s₀ s) (hr : Started s₀) (hpc : s.pc i = .found fb) :
    Living s₀ (s.go i) := by
  have hsee : (s.pc i).seen = some fb := by rw [hpc]; rfl
  have hnonneg := h.nonneg hr hsee
  have htake : ∀ {r : List Addr}, Books s₀ { s.get fb with regained := r } →
      Living s₀ { (s.get fb).goto i (.inside fb) with regained := r } :=
    h.take (p := .inside fb) hsee (by rw [hpc]; rfl) rfl
      (fun b hb => (Option.some.inj hb).symm) nofun nofun
  simp only [Traffic.go, hpc, Traffic.touch_eq (h.alive (.inl hsee))]
  split_ifs with hz
  · refine htake (h.books.get hnonneg (r := fb :: s.regained)
      (fun b hb => List.mem_cons_of_mem _ hb) (fun _ => ?_) fun b hb => ?_)
    · rw [List.count_cons_self, if_pos hz]
    · rw [List.count_cons_of_ne (Ne.symm hb)]
  · exact htake (h.books.get hnonneg (r := s.regained) (fun _ hb => hb)
      (fun _ => by rw [if_neg hz, add_zero]) fun _ _ => rfl)

/-- A thread without a block goes on. -/
theorem stroll (h : Living s₀ s) (hold : (s.pc i).refs = []) (hsee : p.seen = none)
    (hrefs : p.refs = []) (hnot : ∀ b, p ≠ .remove b) : Living s₀ (s.goto i p) := by
  refine h.pass (fun b => by rw [hrefs, hold]) (fun b hb => ?_) (fun b hb => ?_) fun b hb =>
    absurd hb (hnot b)
  · rw [hsee] at hb
    cases hb
  · have hmem := p.kept_subset hb
    rw [hrefs] at hmem
    cases hmem

/-- A lookup finds a block that is in the tables. -/
theorem load (h : Living s₀ s) (hr : Started s₀) {idp : Idp} (hmap : s.st.fblmap idp = some fb)
    (hold : (s.pc i).refs = []) (hsee : p.seen = some fb) (hrefs : p.refs = [])
    (hnot : ∀ b, p ≠ .remove b) : Living s₀ (s.goto i p) := by
  have hent := h.counted.enters_of_fblmap hr hmap
  refine h.pass (fun b => by rw [hrefs, hold]) (fun b hb => ?_) (fun b hb => ?_) fun b hb =>
    absurd hb (hnot b)
  · rw [hsee] at hb
    obtain rfl := Option.some.inj hb
    exact ⟨h.counted.enters_start hent, Traffic.shields_of_releases (h.books.entered fb hent) i⟩
  · have hmem := p.kept_subset hb
    rw [hrefs] at hmem
    cases hmem

theorem go_fetched (h : Living s₀ s) (hr : Started s₀) (hpc : s.pc i = .fetched fb)
    (hzero : s.releases fb = 0) : Living s₀ (s.go i) := by
  have hsee : (s.pc i).seen = some fb := by rw [hpc]; rfl
  have hfb := h.counted.known i fb (.inl hsee)
  simp only [Traffic.go, hpc, Traffic.touch_eq (h.alive (.inl hsee))]
  refine h.take (p := .test fb) (r := s.regained) hsee (by rw [hpc]; rfl) rfl nofun
    (fun b hb => ?_) nofun (h.books.get (h.nonneg hr hsee) (fun _ hb => hb) (fun hf => ?_)
      fun _ _ => rfl)
  · rw [List.mem_singleton.1 hb]
    exact hzero
  · -- a block that has not been released has a reference
    have hled := h.books.ledger fb hfb hf
    rw [hzero] at hled
    split_ifs at hled with hp
    · rw [if_neg (by omega), add_zero]
    · omega

theorem go_test (h : Living s₀ s) (hr : Started s₀) (hpc : s.pc i = .test fb)
    (hok : s.st.factory fb ≠ none → s.st.refcnt fb ≤ 2 → s.st.Enters fb) : Living s₀ (s.go i) := by
  have hkept : fb ∈ (s.pc i).kept := by rw [hpc]; exact List.mem_cons_self
  have hpass : ∀ {p : LifePc}, p.refs = [fb] → p.seen = none → p.kept = [fb] →
      (∀ b, p = .remove b → s.st.Enters b ∧ s₀.refcnt b = 1 ∧ ∀ j, s.pc j ≠ .remove b) →
      Living s₀ (s.goto i p) := by
    intro p hrefs hsee hkeep hrem
    refine h.pass (fun b => by rw [hrefs, hpc]; rfl) (fun b hb => ?_) (fun b hb => ?_) hrem
    · rw [hsee] at hb
      cases hb
    · rw [hkeep, List.mem_singleton] at hb
      rw [hb]
      exact h.kept i fb hkept
  simp only [Traffic.go, hpc, Traffic.touch_eq (h.alive (.inr hkept))]
  cases hf : s.st.factory fb with
  | none => exact hpass rfl rfl rfl nofun
  | some f =>
    dsimp only
    split_ifs with hcnt
    · exact hpass rfl rfl rfl nofun
    · have hent := hok (by rw [hf]; exact nofun) (not_lt.1 hcnt)
      obtain ⟨hone, hno⟩ := h.counted.passes hr hpc hent (not_lt.1 hcnt)
      refine hpass rfl rfl rfl ?_
      rintro b ⟨⟩
      exact ⟨hent, hone, hno⟩

theorem go_unname (h : Living s₀ s) (hpc : s.pc i = .unname fb) : Living s₀ (s.go i) := by
  have hmem : fb ∈ (s.pc i).kept := by rw [hpc]; exact List.mem_cons_self
  have hgoto : Living s₀ (s.goto i (.puts [fb, fb] .ok)) := by
    refine h.pass (fun b => by rw [hpc]; rfl) nofun (fun b hb => h.kept i b ?_) nofun
    rw [hpc]
    exact hb
  obtain ⟨t, ht⟩ := unregisterFrom_frame s.st (s.st.name fb)
  simp only [Traffic.go, hpc, Traffic.touch_eq (h.alive (.inr hmem)), ht]
  exact hgoto.restate rfl rfl rfl rfl

theorem go_put (h : Living s₀ s) (hr : Started s₀) (hold : (s.pc i).refs = fb :: p.refs)
    (hin : (s.pc i).seen = some fb ∨ fb ∈ (s.pc i).kept) (hpsee : p.seen = none)
    (hkept : ∀ b ∈ p.kept, b ∈ (s.pc i).kept) (hnot : ∀ b, p ≠ .remove b) :
    Living s₀ (((s.touch fb).put fb).goto i p) := by
  rw [Traffic.touch_eq (h.alive hin)]
  exact h.drop hr hold hpsee hkept hnot

/-- A thread with a block in hand goes on. -/
theorem go (h : Living s₀ s) (hr : Started s₀) (hok : LifeStep.MayGo s (s.pc i)) :
    Living s₀ (s.go i) := by
  cases hpc : s.pc i with
  | idle =>
    simp only [Traffic.go, hpc]
    exact h
  | next =>
    simp only [Traffic.go, hpc]
    exact h
  | found fb => exact h.go_found hr hpc
  | inside fb =>
    simp only [Traffic.go, hpc]
    exact h.go_put hr (by rw [hpc]; rfl) (.inl (by rw [hpc]; rfl)) rfl nofun nofun
  | mapping name =>
    simp only [Traffic.go, hpc]
    exact h.stroll (by rw [hpc]; rfl) rfl rfl nofun
  | indexing idp =>
    simp only [Traffic.go, hpc]
    cases hmap : s.st.fblmap idp with
    | none => exact h.stroll (by rw [hpc]; rfl) rfl rfl nofun
    | some fb => exact h.load hr hmap (by rw [hpc]; rfl) rfl rfl nofun
  | fetched fb =>
    rw [hpc] at hok
    exact h.go_fetched hr hpc hok
  | test fb =>
    rw [hpc] at hok
    exact h.go_test hr hpc hok
  | remove fb =>
    have hkept : fb ∈ (s.pc i).kept := by rw [hpc]; exact List.mem_cons_self
    simp only [Traffic.go, hpc, Traffic.touch_eq (h.alive (.inr hkept))]
    exact h.takeOut hpc
  | unname fb => exact h.go_unname hpc
  | puts fbs ret =>
    cases fbs with
    | nil =>
      simp only [Traffic.go, hpc]
      exact h.stroll (by rw [hpc]; rfl) rfl rfl nofun
    | cons fb fbs =>
      simp only [Traffic.go, hpc]
      refine h.go_put hr (by rw [hpc]; rfl) (.inr ?_) rfl (fun b hb => ?_) nofun
      · rw [hpc]
        exact List.mem_cons_self
      · rw [hpc]
        exact List.mem_cons_of_mem fb hb

/-- **Step.** -/
theorem exec (h : Living s₀ s) (hr : Started s₀) {step : LifeStep ι} (hok : step.Possible s) :
    Living s₀ (step.exec s) := by
  cases step with
  | packet i =>
    rw [LifeStep.exec]
    split
    · next hpc => exact h.stroll (by rw [hpc]; rfl) rfl rfl nofun
    · exact h
  | lookup i idp =>
    rw [LifeStep.exec]
    split
    · next hpc hmap => exact h.load hr hmap (by rw [hpc]; rfl) rfl rfl nofun
    · exact h
  | rx i area =>
    rw [LifeStep.exec]
    split
    · next fb hpc =>
      have hsee : (s.pc i).seen = some fb := by rw [hpc]; rfl
      rw [Traffic.touch_eq (h.alive (.inl hsee))]
      exact h.restate rfl rfl rfl rfl
    · exact h
  | done i =>
    rw [LifeStep.exec]
    split
    · next hpc => exact h.stroll (by rw [hpc]; rfl) rfl rfl nofun
    · exact h
  | call i name =>
    rw [LifeStep.exec]
    split
    · next hpc => exact h.stroll (by rw [hpc]; rfl) rfl rfl nofun
    · exact h
  | go i => exact h.go hr hok
  | callback n =>
    obtain ⟨fb, w, hn, hnone⟩ := hok
    simp only [LifeStep.exec, hn]
    exact h.callback hn hnone

end Living

end Lives

/-! ## Schedules -/

section Alone

variable {ι : Type*} [DecidableEq ι]

/-- The thread `i` gets from `s` to the state `st` and to `p` with no step of another one. -/
def Traffic.Gets (s : Traffic ι) (i : ι) (st : State) (p : LifePc) : Prop :=
  ∃ t, Relation.ReflTransGen (fun a b : Traffic ι => a.go i = b) s t ∧ t.st = st ∧ t.pc i = p

theorem Traffic.Gets.head {s : Traffic ι} {i : ι} {st : State} {p : LifePc}
    (h : (s.go i).Gets i st p) : s.Gets i st p := by
  obtain ⟨t, ht, hst, hp⟩ := h
  exact ⟨t, .head rfl ht, hst, hp⟩

theorem gets_puts (i : ι) (fbs : List Addr) (ret : Ret) : ∀ (s : Traffic ι),
    s.pc i = .puts fbs ret → s.Gets i (fbs.foldl putFblock s.st) (.puts [] ret) := by
  induction fbs with
  | nil => exact fun s hs => ⟨s, .refl, rfl, hs⟩
  | cons fb fbs ih =>
    intro s hs
    have hgo : s.go i = ((s.touch fb).put fb).goto i (.puts fbs ret) := by
      simp only [Traffic.go, hs]
    have hrest := ih (s.go i) (by rw [hgo]; exact Function.update_self ..)
    rw [hgo] at hrest
    refine .head ?_
    rw [hgo]
    exact hrest

/-- The steps of a removal that nothing comes between are `userctl_remove`. -/
theorem removal_alone (s : Traffic ι) {i : ι} (hi : s.pc i = .idle) (name : Name) :
    ((LifeStep.call i name).exec s).Gets i (userctlRemove s.st name).2
      (.puts [] (userctlRemove s.st name).1) := by
  have hself : ∀ (t : Traffic ι) p, (t.goto i p).pc i = p := fun t p => Function.update_self ..
  have hst : ∀ (t : Traffic ι) p, (t.goto i p).st = t.st := fun t p => rfl
  simp only [LifeStep.exec, hi]
  unfold userctlRemove searchFblockN searchFblockRaw
  refine .head ?_
  simp only [Traffic.go, hself, hst]
  refine .head ?_
  simp only [Traffic.go, hself, hst]
  cases hmap : s.st.fblmap (getFblockNamespaceMapping s.st name) with
  | none => exact ⟨_, .refl, rfl, hself ..⟩
  | some fb =>
    refine .head ?_
    simp only [Traffic.go, hself]
    refine .head ?_
    have hfac : (getFblock s.st fb).factory fb = s.st.factory fb := rfl
    simp only [Traffic.go, hself, hst, Traffic.get, Traffic.touch, hfac]
    cases hf : s.st.factory fb with
    | none => exact gets_puts i [fb] _ _ (hself ..)
    | some f =>
      dsimp only
      split_ifs with hcnt
      · exact gets_puts i [fb] _ _ (hself ..)
      · refine .head ?_
        simp only [Traffic.go, hself]
        refine .head ?_
        simp only [Traffic.go, Traffic.touch, Traffic.goto, Function.update_self]
        exact gets_puts i [fb, fb] _ _ (Function.update_self ..)

end Alone

/-- Between commands every block in the tables has a reference. -/
theorem started_run (online : OnlineCpus) {cmds : List Cmd} (hb : ∀ c ∈ cmds, c.Basic)
    (hadds : cmds.countP Cmd.creates < 2 ^ 32) : Started (run (State.init online) cmds) := by
  have hlt : (State.init online).idpCounter + cmds.countP Cmd.creates < 2 ^ 32 := by
    show 0 + _ < _
    rwa [Nat.zero_add]
  have h := recorded_run cmds (recorded_init online) hb hlt
  rw [runRecord_fst] at h
  obtain ⟨P, hP⟩ := h.referenced
  intro idp b hmap
  exact ⟨(h.paired.tables.stored idp b hmap).1, hP.pos b ⟨idp, hmap⟩⟩

section Schedules

variable {ι : Type*} [Fintype ι]

theorem owed_idle {pc : ι → LifePc} (h : ∀ i, pc i = .idle) (b : Addr) : owed pc b = 0 :=
  Finset.sum_eq_zero fun i _ => by rw [h i]; rfl

variable [DecidableEq ι]

/-- **Run.** -/
theorem living_run {s₀ : State} (hr : Started s₀) {steps : List (LifeStep ι)}
    (hok : Transition.Allowed LifeStep.exec LifeStep.Possible (Traffic.init s₀) steps) :
    Living s₀ (runTraffic s₀ steps) :=
  Transition.invariant_of_allowed (fun _ _ h hstep => h.exec hr hstep) (living_init hr) hok

end Schedules

/-- A packet has loaded the block when it is removed, and counts it afterwards.  The two callbacks
come together. -/
def lateCount : List (LifeStep Bool) :=
  [.packet true, .lookup true 1, .call false nameA] ++ List.replicate 9 (.go false) ++
    [.go true, .go true, .done true, .callback 0, .callback 0]

theorem lateCount_allowed : Transition.Allowed LifeStep.exec LifeStep.Possible
    (Traffic.init (run (State.init oneCpu) [.add nameA Factory.dummy.type .ok])) lateCount := by
  refine ⟨trivial, trivial, trivial, trivial, trivial, ?_, ?_, trivial, trivial, trivial, trivial,
    trivial, trivial, trivial, trivial, ?_, ?_, trivial⟩
  · exact (rfl : (0 : ℕ) = 0)
  · exact fun _ _ => rfl
  · exact ⟨_, _, rfl, by decide⟩
  · exact ⟨_, _, rfl, by decide⟩

/-- Two removals: the second one has counted the block before it leaves the tables, and tests it
after the first one has put the reference of the tables. -/
example :
    (runTraffic (run (State.init oneCpu) [.add nameA Factory.dummy.type .ok])
      ([.call true nameA, .call false nameA] ++ List.replicate 4 (.go true) ++
        List.replicate 3 (.go false) ++ List.replicate 3 (.go true) ++
        List.replicate 6 (.go false) ++ [.go true, .go true])).st.refcnt 0 = -1 := by
  decide

end Lana
