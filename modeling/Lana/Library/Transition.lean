import Mathlib.Data.List.Basic

/-!
# Runs of a transition function

A run is a sequence of actions taken one after another.  `Allowed` says that each action meets a
condition in the state where it is taken; what such an action preserves holds after the run.
-/

namespace Transition

variable {σ α : Type*} (step : σ → α → σ) (ok : σ → α → Prop)

/-- Every action of the sequence is allowed where it is taken. -/
def Allowed : σ → List α → Prop
  | _, [] => True
  | s, a :: as => ok s a ∧ Allowed (step s a) as

instance decidableAllowed [∀ s a, Decidable (ok s a)] : ∀ s as, Decidable (Allowed step ok s as)
  | _, [] => inferInstanceAs (Decidable True)
  | s, a :: as =>
    have := decidableAllowed (step s a) as
    inferInstanceAs (Decidable (ok s a ∧ Allowed step ok (step s a) as))

variable {step ok}

/-- What every allowed action preserves holds after an allowed run. -/
theorem invariant_of_allowed {I : σ → Prop} (hstep : ∀ s a, I s → ok s a → I (step s a)) :
    ∀ {s : σ} {as : List α}, I s → Allowed step ok s as → I (as.foldl step s) := by
  intro s as
  induction as generalizing s with
  | nil => exact fun hs _ => hs
  | cons a as ih => exact fun hs h => ih (hstep s a hs h.1) h.2

/-- What the first action that is not allowed brings about, and no action undoes, holds after a run
that is not allowed. -/
theorem of_not_allowed {I J : σ → Prop} (hstep : ∀ s a, I s → ok s a → I (step s a))
    (hbad : ∀ s a, I s → ¬ ok s a → J (step s a)) (hkeep : ∀ s a, J s → J (step s a)) :
    ∀ {s : σ} {as : List α}, I s → ¬ Allowed step ok s as → J (as.foldl step s) := by
  intro s as
  induction as generalizing s with
  | nil => exact fun _ h => absurd trivial h
  | cons a as ih =>
    intro hs h
    by_cases ha : ok s a
    · exact ih (hstep s a hs ha) fun has => h ⟨ha, has⟩
    · exact List.foldlRecOn as step (hbad s a hs ha) fun t ht b _ => hkeep t b ht

/-- Two runs of the same actions in step: if `M` survives exactly the actions that are allowed in
the second run, this one is allowed exactly when `M` holds all along the first. -/
theorem allowed_iff_forall_prefix_sim {τ : Type*} {astep : τ → α → τ} {aok : τ → α → Prop}
    {R : σ → τ → Prop} {M : σ → Prop}
    (hstep : ∀ s t a, R s t → M s → R (step s a) (astep t a) ∧ (M (step s a) ↔ aok t a)) :
    ∀ {s : σ} {t : τ} {as : List α}, R s t → M s →
      (Allowed astep aok t as ↔ ∀ bs, bs <+: as → M (bs.foldl step s)) := by
  intro s t as
  induction as generalizing s t with
  | nil =>
    intro _ hM
    refine ⟨fun _ bs hbs => ?_, fun _ => trivial⟩
    rw [List.prefix_nil.1 hbs]
    exact hM
  | cons a as ih =>
    intro hR hM
    obtain ⟨hR', hiff⟩ := hstep s t a hR hM
    constructor
    · rintro ⟨ha, has⟩ bs hbs
      rcases List.prefix_cons_iff.1 hbs with rfl | ⟨cs, rfl, hcs⟩
      · exact hM
      · exact (ih hR' (hiff.2 ha)).1 has cs hcs
    · intro h
      have hM' : M (step s a) := h [a] (List.prefix_append [a] as)
      refine ⟨hiff.1 hM', (ih hR' hM').2 fun cs hcs => ?_⟩
      exact h (a :: cs) (List.prefix_cons_inj a |>.2 hcs)

/-- If `M` survives exactly the allowed actions, a run is allowed exactly when `M` holds all
along. -/
theorem allowed_iff_forall_prefix {I M : σ → Prop}
    (hstep : ∀ s a, I s → M s → I (step s a) ∧ (M (step s a) ↔ ok s a)) {s : σ} {as : List α}
    (hI : I s) (hM : M s) : Allowed step ok s as ↔ ∀ bs, bs <+: as → M (bs.foldl step s) := by
  refine allowed_iff_forall_prefix_sim (R := fun s t => s = t ∧ I s) ?_ ⟨rfl, hI⟩ hM
  rintro s _ a ⟨rfl, hI⟩ hM
  obtain ⟨hI', hiff⟩ := hstep s a hI hM
  exact ⟨⟨rfl, hI'⟩, hiff⟩

/-- Two conditions that agree where an invariant holds allow the same runs. -/
theorem allowed_congr {ok' : σ → α → Prop} {I : σ → Prop}
    (hstep : ∀ s a, I s → ok s a → I (step s a)) (hiff : ∀ s a, I s → (ok s a ↔ ok' s a)) :
    ∀ {s : σ} {as : List α}, I s → (Allowed step ok s as ↔ Allowed step ok' s as) := by
  intro s as
  induction as generalizing s with
  | nil => exact fun _ => Iff.rfl
  | cons a as ih =>
    intro hs
    show ok s a ∧ _ ↔ ok' s a ∧ _
    rw [← hiff s a hs]
    exact and_congr_right fun ha => ih (hstep s a hs ha)

/-- Allowed, action by action. -/
theorem allowed_iff_forall_next {s : σ} {as : List α} :
    Allowed step ok s as ↔ ∀ bs a, bs ++ [a] <+: as → ok (bs.foldl step s) a := by
  induction as generalizing s with
  | nil =>
    refine ⟨fun _ bs a h => ?_, fun _ => trivial⟩
    exact absurd (List.prefix_nil.1 h) (by simp)
  | cons a as ih =>
    show ok s a ∧ Allowed step ok (step s a) as ↔ _
    rw [ih]
    constructor
    · rintro ⟨ha, has⟩ (_ | ⟨b, bs⟩) c h
      · obtain ⟨rfl, -⟩ := List.cons_prefix_cons.1 h
        exact ha
      · obtain ⟨rfl, hbs⟩ := List.cons_prefix_cons.1 h
        exact has bs c hbs
    · intro h
      refine ⟨h [] a (List.prefix_append [a] as), fun bs c hbs => ?_⟩
      exact h (a :: bs) c (List.cons_prefix_cons.2 ⟨rfl, hbs⟩)

/-- A run is allowed when its first part is, and its second part from there on. -/
theorem allowed_append {s : σ} {as bs : List α} :
    Allowed step ok s (as ++ bs) ↔ Allowed step ok s as ∧ Allowed step ok (as.foldl step s) bs := by
  induction as generalizing s with
  | nil => simp [Allowed]
  | cons a as ih => simp [Allowed, ih, and_assoc]

/-! ## Answers -/

/-- What the actions of a run are answered, one after another. -/
def answers {ρ : Type*} (step : σ → α → σ) (ans : σ → α → ρ) : σ → List α → List ρ
  | _, [] => []
  | s, a :: as => ans s a :: answers step ans (step s a) as

theorem answers_map {ρ ρ' : Type*} (g : ρ → ρ') (ans : σ → α → ρ) :
    ∀ (s : σ) (as : List α),
      answers step (fun s a => g (ans s a)) s as = (answers step ans s as).map g := by
  intro s as
  induction as generalizing s with
  | nil => rfl
  | cons a as ih => exact congrArg (g (ans s a) :: ·) (ih (step s a))

theorem allowed_of_forall {s : σ} {as : List α} (h : ∀ a ∈ as, ∀ s, ok s a) :
    Allowed step ok s as := by
  induction as generalizing s with
  | nil => trivial
  | cons a as ih =>
    exact ⟨h a List.mem_cons_self s, ih fun a' ha' => h a' (List.mem_cons_of_mem a ha')⟩

/-- A system whose allowed actions are operations of a second one and are answered as there gives
the answers of the second one along every allowed run, and stays in step with it. -/
theorem answers_sim {τ β ρ : Type*} {ans : σ → α → ρ} {astep : τ → β → τ} {aans : τ → β → ρ}
    {f : α → Option β} {R : σ → τ → Prop}
    (hstep : ∀ s t a, R s t → ok s a →
      ∃ b, f a = some b ∧ ans s a = aans t b ∧ R (step s a) (astep t b)) :
    ∀ {s : σ} {t : τ} {as : List α}, R s t → Allowed step ok s as →
      answers step ans s as = answers astep aans t (as.filterMap f) ∧
        R (as.foldl step s) ((as.filterMap f).foldl astep t) := by
  intro s t as
  induction as generalizing s t with
  | nil => exact fun hR _ => ⟨rfl, hR⟩
  | cons a as ih =>
    intro hR hok
    obtain ⟨b, hb, hans, hR'⟩ := hstep s t a hR hok.1
    obtain ⟨hrest, hlast⟩ := ih hR' hok.2
    rw [List.filterMap_cons_some hb]
    refine ⟨?_, hlast⟩
    show ans s a :: _ = aans t b :: _
    rw [hans, hrest]

/-! ## Labelled steps -/

/-- Steps with the labels `as`, one after another, lead from one state to another. -/
inductive Steps (next : σ → α → σ → Prop) : σ → List α → σ → Prop
  | nil (s : σ) : Steps next s [] s
  | cons {s s' s'' : σ} {a : α} {as : List α} (h : next s a s') (hs : Steps next s' as s'') :
      Steps next s (a :: as) s''

/-- A system whose steps are steps of a second one, seen through `f`, as long as `I` holds: its runs
are runs of the second one. -/
theorem Steps.refine {τ : Type*} {next : σ → α → σ → Prop} {anext : τ → α → τ → Prop} {f : σ → τ}
    {I : σ → Prop} {good : α → Prop}
    (hstep : ∀ s a s', I s → good a → next s a s' → I s' ∧ anext (f s) a (f s')) {s s' : σ}
    {as : List α} (h : Steps next s as s') :
    (∀ a ∈ as, good a) → I s → I s' ∧ Steps anext (f s) as (f s') := by
  induction h with
  | nil s => exact fun _ hI => ⟨hI, .nil _⟩
  | @cons s s' s'' a as h _ ih =>
    intro hgood hI
    obtain ⟨hI', hnext⟩ := hstep s a s' hI (hgood a List.mem_cons_self) h
    obtain ⟨hI'', hrest⟩ := ih (fun b hb => hgood b (List.mem_cons_of_mem a hb)) hI'
    exact ⟨hI'', .cons hnext hrest⟩

end Transition
