import Mathlib.Data.List.Basic
import Mathlib.Tactic

/-!
# Reading a memory cell by cell

A pointer walks over a memory of finitely many cells.  A computation that reads through pointers
has a result, unless it reads beyond the end of the memory, and leaves the offsets of the cells it
has examined (`Trace`).

`Covers` is the rule for computations that only move forward: the pointer they return stands on the
last cell they examined.  It holds of a loop that skips cells (`covers_skipWhile`) and of one
computation after another (`Covers.bind_or_stay`), so that all cells examined lie before an
offset exactly when the returned pointer does (`Covers.reads_lt_iff`).

`Follows` also says where in a buffer such a computation stops, by what is left of the buffer: a
loop that skips cells stops behind a `Span` of them (`follows_skipWhile`), and one computation after
another where the composition of the two relations says (`Follows.bind`).
-/

namespace Scan

universe u

variable {β : Type*} {α γ : Type u}

/-- A pointer: its offset in the memory, and the cells from there to the end of the memory. -/
structure Ptr (β : Type*) where
  off : ℕ
  rest : List β
  deriving DecidableEq

/-- The offset behind the last cell of the memory. -/
def Ptr.stop (p : Ptr β) : ℕ := p.off + p.rest.length

/-- What a computation returns, `none` when it has read a cell beyond the memory, and the offsets of
the cells it has examined. -/
structure Trace (α : Type u) where
  result : Option α
  reads : List ℕ
  deriving DecidableEq

namespace Trace

/-- A cell is examined before the rest. -/
def examined (off : ℕ) (x : Trace α) : Trace α := ⟨x.result, off :: x.reads⟩

@[simp] theorem result_examined (off : ℕ) (x : Trace α) : (x.examined off).result = x.result := rfl

@[simp] theorem reads_examined (off : ℕ) (x : Trace α) :
    (x.examined off).reads = off :: x.reads := rfl

instance : Monad Trace where
  pure a := ⟨some a, []⟩
  bind x f := match x.result with
    | none => ⟨none, x.reads⟩
    | some a => ⟨(f a).result, x.reads ++ (f a).reads⟩

@[simp] theorem result_pure (a : α) : (pure a : Trace α).result = some a := rfl

@[simp] theorem reads_pure (a : α) : (pure a : Trace α).reads = [] := rfl

theorem bind_of_none {x : Trace α} (h : x.result = none) (f : α → Trace γ) :
    x >>= f = ⟨none, x.reads⟩ := by
  show (match x.result with
    | none => ⟨none, x.reads⟩
    | some a => ⟨(f a).result, x.reads ++ (f a).reads⟩ : Trace γ) = _
  rw [h]

theorem bind_of_some {x : Trace α} {a : α} (h : x.result = some a) (f : α → Trace γ) :
    x >>= f = ⟨(f a).result, x.reads ++ (f a).reads⟩ := by
  show (match x.result with
    | none => ⟨none, x.reads⟩
    | some a => ⟨(f a).result, x.reads ++ (f a).reads⟩ : Trace γ) = _
  rw [h]

theorem result_bind_of_some {x : Trace α} {a : α} (h : x.result = some a) (f : α → Trace γ) :
    (x >>= f).result = (f a).result := by
  rw [bind_of_some h]

theorem result_map (g : α → γ) (x : Trace α) : (g <$> x).result = x.result.map g := by
  show (x >>= pure ∘ g).result = _
  cases h : x.result with
  | none => rw [bind_of_none h]; rfl
  | some a => rw [bind_of_some h]; rfl

end Trace

/-! ## Moving forward -/

/-- The pointer that is returned stands on the last cell examined; without a result it is the cell
behind the memory that was examined. -/
structure Covers (ptr : α → Ptr β) (p : Ptr β) (x : Trace α) : Prop where
  fault : x.result = none → p.stop ∈ x.reads
  forward : ∀ a, x.result = some a → p.off ≤ (ptr a).off ∧ (ptr a).stop = p.stop
  last : ∀ a, x.result = some a → (ptr a).off ∈ x.reads ∧ ∀ i ∈ x.reads, i ≤ (ptr a).off

namespace Covers

variable {ptr : α → Ptr β} {ptr' : γ → Ptr β} {p : Ptr β} {x : Trace α}

/-- Cells up to a place are examined, and the rest starts from there. -/
theorem before {q : Ptr β} (hx : Covers ptr q x) (hoff : p.off ≤ q.off) (hstop : q.stop = p.stop)
    {l : List ℕ} (hl : ∀ i ∈ l, i ≤ q.off) : Covers ptr p ⟨x.result, l ++ x.reads⟩ := by
  refine ⟨fun hnone => ?_, fun a ha => ?_, fun a ha => ⟨?_, fun i hi => ?_⟩⟩
  · rw [← hstop]
    exact List.mem_append_right _ (hx.fault hnone)
  · obtain ⟨hle, hst⟩ := hx.forward a ha
    exact ⟨hoff.trans hle, hst.trans hstop⟩
  · exact List.mem_append_right _ (hx.last a ha).1
  · rcases List.mem_append.1 hi with hi | hi
    · exact (hl i hi).trans (hx.forward a ha).1
    · exact (hx.last a ha).2 i hi

/-- One computation after another: the second goes on from where the first has stopped, or reads
nothing and stays there. -/
theorem bind_or_stay (hx : Covers ptr p x) {f : α → Trace γ}
    (hf : ∀ a, x.result = some a →
      Covers ptr' (ptr a) (f a) ∨ ∃ c, f a = pure c ∧ ptr' c = ptr a) :
    Covers ptr' p (x >>= f) := by
  cases hres : x.result with
  | none =>
    rw [Trace.bind_of_none hres]
    exact ⟨fun _ => hx.fault hres, nofun, nofun⟩
  | some a =>
    rw [Trace.bind_of_some hres]
    rcases hf a hres with hfa | ⟨c, hpure, hc⟩
    · obtain ⟨hle, hstop⟩ := hx.forward a hres
      exact hfa.before hle hstop (hx.last a hres).2
    · rw [hpure, Trace.result_pure, Trace.reads_pure, List.append_nil]
      refine ⟨nofun, fun c' hc' => ?_, fun c' hc' => ?_⟩
      · obtain rfl := Option.some.inj hc'
        rw [hc]
        exact hx.forward a hres
      · obtain rfl := Option.some.inj hc'
        rw [hc]
        exact hx.last a hres

theorem bind (hx : Covers ptr p x) {f : α → Trace γ}
    (hf : ∀ a, x.result = some a → Covers ptr' (ptr a) (f a)) : Covers ptr' p (x >>= f) :=
  hx.bind_or_stay fun a ha => .inl (hf a ha)

theorem map (hx : Covers ptr p x) {g : α → γ} (hg : ∀ a, ptr' (g a) = ptr a) :
    Covers ptr' p (g <$> x) :=
  hx.bind_or_stay fun a _ => .inr ⟨g a, rfl, hg a⟩

/-- A cell is examined, and the rest starts behind it. -/
theorem examined {m : List β} {off : ℕ} {b : β} (hx : Covers ptr ⟨off + 1, m⟩ x) :
    Covers ptr ⟨off, b :: m⟩ (x.examined off) := by
  refine hx.before (l := [off]) (Nat.le_succ off) ?_ ?_
  · simp only [Ptr.stop, List.length_cons]
    omega
  · intro i hi
    rw [List.mem_singleton.1 hi]
    exact Nat.le_succ off

/-- The end of the memory is examined. -/
theorem outside (ptr : α → Ptr β) (off : ℕ) : Covers ptr ⟨off, []⟩ ⟨none, [off]⟩ :=
  ⟨fun _ => List.mem_singleton.2 rfl, nofun, nofun⟩

/-- One cell is examined, and the computation stops there. -/
theorem here {ptr : α → Ptr β} {a : α} (ha : ptr a = p) : Covers ptr p ⟨some a, [p.off]⟩ := by
  refine ⟨nofun, fun c hc => ?_, fun c hc => ?_⟩
  · obtain rfl := Option.some.inj hc
    rw [ha]
    exact ⟨le_rfl, rfl⟩
  · obtain rfl := Option.some.inj hc
    rw [ha]
    exact ⟨List.mem_singleton.2 rfl, fun i hi => (List.mem_singleton.1 hi).le⟩

/-- What is examined lies before an offset of the memory exactly when the pointer that is returned
does. -/
theorem reads_lt_iff (hx : Covers ptr p x) {stop : ℕ} (hstop : stop ≤ p.stop) :
    (∀ i ∈ x.reads, i < stop) ↔ ∃ a, x.result = some a ∧ (ptr a).off < stop := by
  constructor
  · intro h
    cases hres : x.result with
    | none => exact absurd (h _ (hx.fault hres)) (not_lt.2 hstop)
    | some a => exact ⟨a, rfl, h _ (hx.last a hres).1⟩
  · rintro ⟨a, ha, hlt⟩ i hi
    exact ((hx.last a ha).2 i hi).trans_lt hlt

end Covers

/-! ## Skipping cells -/

/-- `skipWhile` from an offset on. -/
def skipFrom (c : β → Bool) : List β → ℕ → Trace (Ptr β)
  | [], off => ⟨none, [off]⟩
  | b :: m, off =>
    if c b then (skipFrom c m (off + 1)).examined off else ⟨some ⟨off, b :: m⟩, [off]⟩

/-- `while (c(*p)) p++;` -/
def skipWhile (c : β → Bool) (p : Ptr β) : Trace (Ptr β) := skipFrom c p.rest p.off

theorem covers_skipFrom (c : β → Bool) (m : List β) (off : ℕ) :
    Covers id ⟨off, m⟩ (skipFrom c m off) := by
  induction m generalizing off with
  | nil => exact .outside id off
  | cons b m ih =>
    unfold skipFrom
    split_ifs
    · exact (ih (off + 1)).examined
    · exact .here rfl

theorem covers_skipWhile (c : β → Bool) (p : Ptr β) : Covers id p (skipWhile c p) :=
  covers_skipFrom c p.rest p.off

theorem result_skipFrom {c : β → Bool} {l : List β} {b : β} (hl : ∀ a ∈ l, c a = true)
    (hb : c b = false) (m : List β) (off : ℕ) :
    (skipFrom c (l ++ b :: m) off).result = some ⟨off + l.length, b :: m⟩ := by
  induction l generalizing off with
  | nil => simp [skipFrom, hb]
  | cons a l ih =>
    have ha : c a = true := hl a List.mem_cons_self
    have := ih (fun a' h => hl a' (List.mem_cons_of_mem _ h)) (off + 1)
    simp only [List.cons_append, skipFrom, ha, if_true, Trace.result_examined, this,
      List.length_cons]
    congr 2
    omega

/-- The pointer moves over the cells to skip. -/
theorem result_skipWhile {c : β → Bool} {l : List β} {b : β} (hl : ∀ a ∈ l, c a = true)
    (hb : c b = false) (m : List β) (off : ℕ) :
    (skipWhile c ⟨off, l ++ b :: m⟩).result = some ⟨off + l.length, b :: m⟩ :=
  result_skipFrom hl hb m off

theorem le_of_mem_skipFrom {c : β → Bool} {m : List β} {off i : ℕ}
    (h : i ∈ (skipFrom c m off).reads) : off ≤ i := by
  induction m generalizing off with
  | nil => exact (List.mem_singleton.1 h).ge
  | cons b m ih =>
    unfold skipFrom at h
    split_ifs at h
    · rcases List.mem_cons.1 h with rfl | h
      · exact le_rfl
      · exact (Nat.le_succ off).trans (ih h)
    · exact (List.mem_singleton.1 h).ge

/-! ## Where a computation stops in a buffer -/

/-- `t` begins with cells of the kind `c`, and what follows them, `t'`, with a cell of another
kind. -/
def Span (c : β → Bool) (t t' : List β) : Prop :=
  ∃ l, t = l ++ t' ∧ (∀ b ∈ l, c b = true) ∧ ∃ b ∈ t'.head?, c b = false

section Span

variable {c : β → Bool} {b : β} {t t' : List β}

theorem not_span_nil : ¬ Span c [] t' := by
  rintro ⟨l, hl, -, b, hb, -⟩
  obtain ⟨-, rfl⟩ := List.append_eq_nil_iff.1 hl.symm
  cases hb

theorem span_cons_skip (hb : c b = true) : Span c (b :: t) t' ↔ Span c t t' := by
  constructor
  · rintro ⟨l, hl, hall, b', hb', hc⟩
    cases l with
    | nil =>
      rw [List.nil_append] at hl
      subst hl
      obtain rfl := Option.some.inj hb'
      rw [hb] at hc
      cases hc
    | cons a l =>
      obtain ⟨rfl, rfl⟩ := List.cons.inj hl
      exact ⟨l, rfl, fun a ha => hall a (List.mem_cons_of_mem _ ha), b', hb', hc⟩
  · rintro ⟨l, rfl, hall, hend⟩
    exact ⟨b :: l, rfl, List.forall_mem_cons.2 ⟨hb, hall⟩, hend⟩

theorem span_cons_stop (hb : c b = false) : Span c (b :: t) t' ↔ t' = b :: t := by
  constructor
  · rintro ⟨l, hl, hall, -⟩
    cases l with
    | nil => exact hl.symm
    | cons a l =>
      obtain ⟨rfl, -⟩ := List.cons.inj hl
      have hskip := hall b List.mem_cons_self
      rw [hb] at hskip
      cases hskip
  · rintro rfl
    exact ⟨[], rfl, nofun, b, rfl, hb⟩

end Span

/-- The pointer into a buffer of `len` cells before its last cells `t`, with `behind` in memory
behind the buffer. -/
def Ptr.before (len : ℕ) (behind t : List β) : Ptr β := ⟨len - t.length, t ++ behind⟩

theorem Ptr.stop_before {len : ℕ} {behind t : List β} (ht : t.length ≤ len) :
    (Ptr.before len behind t).stop = len + behind.length := by
  simp only [Ptr.stop, Ptr.before, List.length_append]
  omega

theorem Ptr.length_le_of_stop_eq {len : ℕ} {behind t : List β}
    (h : (Ptr.before len behind t).stop = len + behind.length) : t.length ≤ len := by
  simp only [Ptr.stop, Ptr.before, List.length_append] at h
  omega

/-- The pointers that stop in a buffer are those before the cells in `R`. -/
structure StopsAt (len : ℕ) (behind : List β) (R : List β → Prop) (o : Option (Ptr β)) : Prop where
  reach : ∀ t, R t → o = some (Ptr.before len behind t)
  only : ∀ q, o = some q → q.off < len → ∃ t, R t ∧ q = Ptr.before len behind t

namespace StopsAt

variable {len : ℕ} {behind : List β} {R : List β → Prop} {S : List β → List β → Prop}
  {ptr : α → Ptr β} {ptr' : γ → Ptr β} {x : Trace α}

/-- A computation that starts behind the buffer does not stop in it. -/
theorem behind_of_covers {p : Ptr β} (hx : Covers ptr p x) (hp : len ≤ p.off)
    (hR : ∀ t, ¬ R t) : StopsAt len behind R (x.result.map ptr) := by
  refine ⟨fun t ht => absurd ht (hR t), fun q hq hlt => ?_⟩
  obtain ⟨a, ha, rfl⟩ := Option.map_eq_some_iff.1 hq
  exact absurd (hp.trans (hx.forward a ha).1) (not_le.2 hlt)

/-- One computation after another, of which the second goes on from where the first has stopped. -/
theorem bind (hx : StopsAt len behind R (x.result.map ptr)) {f : α → Trace γ}
    (hle : ∀ a, x.result = some a → ∀ c, (f a).result = some c → (ptr a).off ≤ (ptr' c).off)
    (hf : ∀ a t, x.result = some a → R t → ptr a = Ptr.before len behind t →
      StopsAt len behind (S t) ((f a).result.map ptr')) :
    StopsAt len behind (fun u => ∃ t, R t ∧ S t u) ((x >>= f).result.map ptr') := by
  constructor
  · rintro u ⟨t, ht, hu⟩
    obtain ⟨a, ha, hpa⟩ := Option.map_eq_some_iff.1 (hx.reach t ht)
    rw [Trace.result_bind_of_some ha]
    exact (hf a t ha ht hpa).reach u hu
  · intro q hq hlt
    cases ha : x.result with
    | none =>
      rw [Trace.bind_of_none ha] at hq
      cases hq
    | some a =>
      rw [Trace.result_bind_of_some ha] at hq
      -- the second computation moves forward, so the first has stopped in the buffer
      have hin : (ptr a).off < len := by
        obtain ⟨c, hc, rfl⟩ := Option.map_eq_some_iff.1 hq
        exact (hle a ha c hc).trans_lt hlt
      obtain ⟨t, ht, hpa⟩ := hx.only (ptr a) (by rw [ha]; rfl) hin
      obtain ⟨u, hu, rfl⟩ := (hf a t ha ht hpa).only q hq hlt
      exact ⟨u, ⟨t, ht, hu⟩, rfl⟩

end StopsAt

theorem stopsAt_skipFrom (c : β → Bool) (behind t : List β) (off : ℕ) :
    StopsAt (off + t.length) behind (Span c t) (skipFrom c (t ++ behind) off).result := by
  induction t generalizing off with
  | nil =>
    have hstop : StopsAt off behind (Span c []) ((skipFrom c behind off).result.map id) :=
      .behind_of_covers (covers_skipFrom c behind off) le_rfl fun _ => not_span_nil
    simpa using hstop
  | cons b t ih =>
    rw [List.cons_append, skipFrom, List.length_cons]
    by_cases hb : c b = true
    · have hlen : off + (t.length + 1) = off + 1 + t.length := by omega
      have hspan : Span c (b :: t) = Span c t := funext fun t' => propext (span_cons_skip hb)
      rw [if_pos hb, Trace.result_examined, hlen, hspan]
      exact ih (off + 1)
    · have hf : c b = false := Bool.eq_false_iff.2 hb
      have hoff : Ptr.before (off + (t.length + 1)) behind (b :: t) = ⟨off, b :: (t ++ behind)⟩ := by
        rw [Ptr.before, List.length_cons, Nat.add_sub_cancel, List.cons_append]
      rw [if_neg hb]
      refine ⟨fun u hu => ?_, fun q hq _ => ⟨b :: t, (span_cons_stop hf).2 rfl, ?_⟩⟩
      · rw [(span_cons_stop hf).1 hu, hoff]
      · rw [hoff]
        exact (Option.some.inj hq).symm

/-- From `p` on the computation only moves forward, and from the cells `t` of a buffer of `len` cells
it comes to those that `R` relates to `t`, or leaves the buffer. -/
structure Follows (len : ℕ) (behind : List β) (R : List β → List β → Prop) (ptr : α → Ptr β)
    (p : Ptr β) (x : Trace α) : Prop where
  covers : Covers ptr p x
  stops : ∀ t, t.length ≤ len → p = Ptr.before len behind t →
    StopsAt len behind (R t) (x.result.map ptr)

namespace Follows

variable {len : ℕ} {behind : List β} {R S : List β → List β → Prop} {ptr : α → Ptr β}
  {ptr' : γ → Ptr β} {p : Ptr β} {x : Trace α}

/-- What is left of the buffer is no longer than the buffer. -/
theorem length_le (hx : Follows len behind R ptr p x) {t t' : List β} (ht : t.length ≤ len)
    (hp : p = Ptr.before len behind t) {a : α} (ha : x.result = some a)
    (hpa : ptr a = Ptr.before len behind t') : t'.length ≤ len :=
  Ptr.length_le_of_stop_eq <| by
    rw [← hpa, (hx.covers.forward a ha).2, hp, Ptr.stop_before ht]

theorem bind (hx : Follows len behind R ptr p x) {f : α → Trace γ}
    (hf : ∀ a, x.result = some a → Follows len behind S ptr' (ptr a) (f a)) :
    Follows len behind (fun t u => ∃ t', R t t' ∧ S t' u) ptr' p (x >>= f) := by
  refine ⟨hx.covers.bind fun a ha => (hf a ha).covers, fun t ht hp => (hx.stops t ht hp).bind ?_ ?_⟩
  · exact fun a ha c hc => ((hf a ha).covers.forward c hc).1
  · exact fun a t' ha _ hpa => (hf a ha).stops t' (hx.length_le ht hp ha hpa) hpa

theorem map (hx : Follows len behind R ptr p x) {g : α → γ} (hg : ∀ a, ptr' (g a) = ptr a) :
    Follows len behind R ptr' p (g <$> x) := by
  refine ⟨hx.covers.map hg, fun t ht hp => ?_⟩
  have hptr : ptr' ∘ g = ptr := funext hg
  rw [Trace.result_map, Option.map_map, hptr]
  exact hx.stops t ht hp

end Follows

/-- A loop that skips cells of a buffer stops behind a span of them. -/
theorem follows_skipWhile (c : β → Bool) (len : ℕ) (behind : List β) (p : Ptr β) :
    Follows len behind (Span c) id p (skipWhile c p) := by
  refine ⟨covers_skipWhile c p, ?_⟩
  rintro t ht rfl
  have h := stopsAt_skipFrom c behind t (len - t.length)
  rw [Nat.sub_add_cancel ht] at h
  rw [Option.map_id_apply]
  exact h

/-! ## Pointers into a list -/

/-- The pointer to the cell `off` of a memory. -/
def Ptr.ofList (mem : List β) (off : ℕ) : Ptr β := ⟨off, mem.drop off⟩

theorem Ptr.length_le_stop (mem : List β) (off : ℕ) : mem.length ≤ (Ptr.ofList mem off).stop := by
  show mem.length ≤ off + (mem.drop off).length
  rw [List.length_drop]
  omega

theorem skipFrom_eq_some {c : β → Bool} {m : List β} {off : ℕ} {q : Ptr β}
    (h : (skipFrom c m off).result = some q) :
    ∃ j b, m[j]? = some b ∧ c b = false ∧ q = ⟨off + j, m.drop j⟩ := by
  induction m generalizing off with
  | nil => cases h
  | cons b m ih =>
    unfold skipFrom at h
    split_ifs at h with hb
    · obtain ⟨j, b', hj, hb', rfl⟩ := ih h
      exact ⟨j + 1, b', hj, hb', by rw [List.drop_succ_cons, Nat.add_right_comm, Nat.add_assoc]⟩
    · obtain rfl := Option.some.inj h
      exact ⟨0, b, rfl, Bool.eq_false_iff.2 hb, rfl⟩

theorem skipFrom_stops {c : β → Bool} {m : List β} {j : ℕ} {b : β} (hj : m[j]? = some b)
    (hb : c b = false) (off : ℕ) :
    ∃ q, (skipFrom c m off).result = some q ∧ q.off ≤ off + j := by
  induction m generalizing off j with
  | nil => cases hj
  | cons a m ih =>
    unfold skipFrom
    split_ifs with ha
    · cases j with
      | zero =>
        obtain rfl := Option.some.inj hj
        rw [ha] at hb
        cases hb
      | succ j =>
        obtain ⟨q, hq, hle⟩ := ih hj (off + 1)
        exact ⟨q, hq, by omega⟩
    · exact ⟨_, rfl, Nat.le_add_right _ _⟩

/-- A loop stops on a cell that it does not skip. -/
theorem skipWhile_ofList_eq_some {c : β → Bool} {mem : List β} {off : ℕ} {q : Ptr β}
    (h : (skipWhile c (.ofList mem off)).result = some q) :
    off ≤ q.off ∧ (∃ b, mem[q.off]? = some b ∧ c b = false) ∧ q = .ofList mem q.off := by
  obtain ⟨j, b, hj, hb, rfl⟩ := skipFrom_eq_some h
  rw [Ptr.ofList, List.getElem?_drop] at hj
  refine ⟨Nat.le_add_right _ _, ⟨b, hj, hb⟩, ?_⟩
  unfold Ptr.ofList
  rw [List.drop_drop]

/-- It stops before an offset exactly when there is such a cell before. -/
theorem skipWhile_ofList_stops_iff {c : β → Bool} {mem : List β} {off stop : ℕ} :
    (∃ q, (skipWhile c (.ofList mem off)).result = some q ∧ q.off < stop) ↔
      ∃ i, off ≤ i ∧ i < stop ∧ ∃ b, mem[i]? = some b ∧ c b = false := by
  constructor
  · rintro ⟨q, hq, hlt⟩
    obtain ⟨hle, hb, -⟩ := skipWhile_ofList_eq_some hq
    exact ⟨q.off, hle, hlt, hb⟩
  · rintro ⟨i, hle, hlt, b, hi, hb⟩
    have hj : (mem.drop off)[i - off]? = some b := by
      rw [List.getElem?_drop, Nat.add_sub_cancel' hle]
      exact hi
    obtain ⟨q, hq, hqle⟩ := skipFrom_stops hj hb off
    exact ⟨q, hq, by omega⟩

end Scan
