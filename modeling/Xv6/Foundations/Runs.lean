import Mathlib

/-!
# Foundations - Runs of a guarded step function

A system is given by a step function that says, for each state and action,
either the next state or that the action is not enabled.  An interleaving is a
list of actions.  This module packages the inductions over runs: a property kept
by every enabled step holds in every state reached, also when it is kept only by
the steps that meet a condition.

Main results:

- Theorem {lit}`runFrom_invariant`: an inductive invariant holds after a run.
- Theorem {lit}`runFrom_invariant_of_meets`: the same for runs whose steps all
  meet a condition.
- Theorem {lit}`allStates_of_meets`: every state passed through has a property
  that the invariant gives.
- Theorem {lit}`allStates_iff_meets`: the condition is exact when the property
  fails after each step that breaks it.
- Theorem {lit}`runFrom_simulates`: a relation between two systems that every step
  keeps explains every run.
-/

namespace Foundations

variable {σ α : Type}

/-- Carry out the actions in order; undefined when one is not enabled. -/
def runFrom (step : σ → α → Option σ) : σ → List α → Option σ
  | s, [] => some s
  | s, a :: as => (step s a).bind fun t => runFrom step t as

/-- Every step of the run meets the condition `C` in the state it is taken. -/
def Meets (step : σ → α → Option σ) (C : σ → α → Prop) : σ → List α → Prop
  | _, [] => True
  | s, a :: as => ∀ t, step s a = some t → C s a ∧ Meets step C t as

/-- Every state the run passes through has the property `P`. -/
def AllStates (step : σ → α → Option σ) (P : σ → Prop) : σ → List α → Prop
  | s, [] => P s
  | s, a :: as => P s ∧ ∀ t, step s a = some t → AllStates step P t as

section Runs

variable {step : σ → α → Option σ} {I P : σ → Prop} {C : σ → α → Prop}

theorem runFrom_cons {s u : σ} {a : α} {as : List α} :
    runFrom step s (a :: as) = some u ↔
      ∃ t, step s a = some t ∧ runFrom step t as = some u := by
  rw [runFrom, Option.bind_eq_some_iff]

theorem runFrom_append {s : σ} {as bs : List α} :
    runFrom step s (as ++ bs) = (runFrom step s as).bind fun t => runFrom step t bs := by
  induction as generalizing s with
  | nil => rfl
  | cons a as ih =>
    simp only [List.cons_append, runFrom, Option.bind_assoc]
    congr 1
    funext t
    exact ih

/-- Two runs one after the other. -/
theorem runFrom_trans {s t u : σ} {as bs : List α}
    (h : runFrom step s as = some t) (h' : runFrom step t bs = some u) :
    runFrom step s (as ++ bs) = some u := by
  rw [runFrom_append, h]
  exact h'

/-- The whole run meets a condition that holds of every step. -/
theorem meets_of_forall (hC : ∀ s a, C s a) (s : σ) (as : List α) : Meets step C s as := by
  induction as generalizing s with
  | nil => trivial
  | cons a as ih => exact fun t _ => ⟨hC s a, ih t⟩

/-- A property kept by every step that meets the condition holds after a run
whose steps all meet it. -/
theorem runFrom_invariant_of_meets
    (hstep : ∀ s a t, I s → C s a → step s a = some t → I t)
    {s u : σ} {as : List α} (hI : I s) (hmeets : Meets step C s as)
    (hrun : runFrom step s as = some u) : I u := by
  induction as generalizing s with
  | nil =>
    cases hrun
    exact hI
  | cons a as ih =>
    rcases runFrom_cons.mp hrun with ⟨t, hst, hrest⟩
    exact ih (hstep s a t hI (hmeets t hst).1 hst) (hmeets t hst).2 hrest

/-- A property kept by every step holds after every run. -/
theorem runFrom_invariant (hstep : ∀ s a t, I s → step s a = some t → I t)
    {s u : σ} {as : List α} (hI : I s) (hrun : runFrom step s as = some u) : I u :=
  runFrom_invariant_of_meets (C := fun _ _ => True)
    (fun s a t hs _ hst => hstep s a t hs hst) hI
    (meets_of_forall (fun _ _ => trivial) s as) hrun

/-- Every state passed through by a run that meets the condition has the
property that the invariant gives. -/
theorem allStates_of_meets (hP : ∀ s, I s → P s)
    (hstep : ∀ s a t, I s → C s a → step s a = some t → I t)
    {s : σ} {as : List α} (hI : I s) (hmeets : Meets step C s as) :
    AllStates step P s as := by
  induction as generalizing s with
  | nil => exact hP s hI
  | cons a as ih =>
    refine ⟨hP s hI, ?_⟩
    intro t hst
    exact ih (hstep s a t hI (hmeets t hst).1 hst) (hmeets t hst).2

theorem AllStates.head {s : σ} {as : List α} (h : AllStates step P s as) : P s := by
  cases as with
  | nil => exact h
  | cons a as => exact h.1

theorem AllStates.last {s t : σ} {as : List α} (h : AllStates step P s as)
    (hrun : runFrom step s as = some t) : P t := by
  induction as generalizing s with
  | nil =>
    cases hrun
    exact h
  | cons a as ih =>
    rcases runFrom_cons.mp hrun with ⟨u, hst, hrest⟩
    exact ih (h.2 u hst) hrest

/-- If the property fails right after each step that breaks the condition, a run
whose states all have the property meets the condition.  The invariant need only be kept by
steps that meet it. -/
theorem meets_of_allStates_of_step
    (hstep : ∀ s a t, I s → C s a → step s a = some t → I t)
    (hbad : ∀ s a t, I s → step s a = some t → P t → C s a)
    {s : σ} {as : List α} (hI : I s) (hall : AllStates step P s as) : Meets step C s as := by
  induction as generalizing s with
  | nil => trivial
  | cons a as ih =>
    intro t hst
    have hrest := hall.2 t hst
    have hC := hbad s a t hI hst hrest.head
    exact ⟨hC, ih (hstep s a t hI hC hst) hrest⟩

/-- The same with an invariant that every step keeps. -/
theorem meets_of_allStates (hstep : ∀ s a t, I s → step s a = some t → I t)
    (hbad : ∀ s a t, I s → step s a = some t → P t → C s a)
    {s : σ} {as : List α} (hI : I s) (hall : AllStates step P s as) : Meets step C s as :=
  meets_of_allStates_of_step (fun s a t hs _ hst => hstep s a t hs hst) hbad hI hall

/-- A condition that decides, step by step, whether the property survives decides whether it
holds in every state of a run.  The run itself may be known to meet another condition. -/
theorem allStates_iff_meets {D : σ → α → Prop} (hP : ∀ s, I s → P s)
    (hstep : ∀ s a t, I s → D s a → step s a = some t → (C s a ∧ I t) ∨ (¬ C s a ∧ ¬ P t))
    {s : σ} {as : List α} (hI : I s) (hD : Meets step D s as) :
    AllStates step P s as ↔ Meets step C s as := by
  induction as generalizing s with
  | nil => exact ⟨fun _ => trivial, fun _ => hP s hI⟩
  | cons a as ih =>
    constructor
    · intro hall t hst
      rcases hstep s a t hI (hD t hst).1 hst with ⟨hC, hIt⟩ | ⟨-, hPt⟩
      · exact ⟨hC, (ih hIt (hD t hst).2).mp (hall.2 t hst)⟩
      · exact absurd (hall.2 t hst).head hPt
    · intro hmeets
      refine ⟨hP s hI, ?_⟩
      intro t hst
      rcases hstep s a t hI (hD t hst).1 hst with ⟨-, hIt⟩ | ⟨hC, -⟩
      · exact (ih hIt (hD t hst).2).mpr (hmeets t hst).2
      · exact absurd (hmeets t hst).1 hC

/-- Whether a concrete run meets a decidable condition can be computed. -/
instance decidableMeets [∀ s a, Decidable (C s a)] :
    ∀ (s : σ) (as : List α), Decidable (Meets step C s as)
  | _, [] => isTrue trivial
  | s, a :: as =>
    match h : step s a with
    | none => isTrue fun t ht => by simp [h] at ht
    | some t =>
      have := decidableMeets t as
      decidable_of_iff (C s a ∧ Meets step C t as) (by simp [Meets, h])

end Runs

/-! ## Simulation

A system is observed through the events of its steps.  It refines an abstract one when every run
is explained by a run of the abstract system on the observed events. -/

section Simulation

variable {τ ε : Type}

/-- The events observed along a run. -/
def traceFrom (step : σ → α → Option σ) (events : σ → α → List ε) : σ → List α → List ε
  | _, [] => []
  | s, a :: as =>
    match step s a with
    | none => []
    | some t => events s a ++ traceFrom step events t as

/-- A relation that every step that meets the condition keeps, when the abstract system takes
the observed events, explains every run whose steps all meet it. -/
theorem runFrom_simulates_of_meets {step : σ → α → Option σ} {events : σ → α → List ε}
    {spec : τ → ε → Option τ} {R : σ → τ → Prop} {C : σ → α → Prop}
    (hstep : ∀ s a t d, R s d → C s a → step s a = some t →
      ∃ d', runFrom spec d (events s a) = some d' ∧ R t d')
    {s t : σ} {d : τ} {as : List α} (hR : R s d) (hmeets : Meets step C s as)
    (hrun : runFrom step s as = some t) :
    ∃ d', runFrom spec d (traceFrom step events s as) = some d' ∧ R t d' := by
  induction as generalizing s d with
  | nil =>
    cases hrun
    exact ⟨d, rfl, hR⟩
  | cons a as ih =>
    rcases runFrom_cons.mp hrun with ⟨u, hst, hrest⟩
    rcases hstep s a u d hR (hmeets u hst).1 hst with ⟨e, hspec, hRe⟩
    rcases ih hRe (hmeets u hst).2 hrest with ⟨d', hspec', hR'⟩
    refine ⟨d', ?_, hR'⟩
    rw [traceFrom, hst]
    exact runFrom_trans hspec hspec'

/-- A relation that every step keeps explains every run. -/
theorem runFrom_simulates {step : σ → α → Option σ} {events : σ → α → List ε}
    {spec : τ → ε → Option τ} {R : σ → τ → Prop}
    (hstep : ∀ s a t d, R s d → step s a = some t →
      ∃ d', runFrom spec d (events s a) = some d' ∧ R t d')
    {s t : σ} {d : τ} {as : List α} (hR : R s d) (hrun : runFrom step s as = some t) :
    ∃ d', runFrom spec d (traceFrom step events s as) = some d' ∧ R t d' :=
  runFrom_simulates_of_meets (C := fun _ _ => True)
    (fun s a t d hs _ hst => hstep s a t d hs hst) hR
    (meets_of_forall (fun _ _ => trivial) s as) hrun

end Simulation

end Foundations
