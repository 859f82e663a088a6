import Mathlib.Logic.Relation

/-!
# Runs of a transition system

A transition system is a partial step function `step : σ → α → Option σ`: the action `a` either
is not enabled in the state `s` (`none`) or leads to a new state. All interleavings of several
parties are the runs of one such system whose actions say which party moves and how.

## Main results

* `Runs.invariant_of_step`: from a step to a run.
-/

namespace Runs

variable {σ α : Type*} {step : σ → α → Option σ} {guard : σ → α → Prop}

/-- The state after the actions, in order; `none` as soon as one is not enabled. -/
def run (step : σ → α → Option σ) : σ → List α → Option σ
  | s, [] => some s
  | s, a :: as =>
    match step s a with
    | some s' => run step s' as
    | none => none

/-- Every step that the run takes meets the condition `guard` on the state before the step and
its action. -/
def Meets (step : σ → α → Option σ) (guard : σ → α → Prop) : σ → List α → Prop
  | _, [] => True
  | s, a :: as =>
    guard s a ∧
      match step s a with
      | some s' => Meets step guard s' as
      | none => True

instance decidableMeets [∀ s a, Decidable (guard s a)] :
    ∀ (s : σ) (as : List α), Decidable (Meets step guard s as)
  | _, [] => isTrue trivial
  | s, a :: as =>
    match h : step s a with
    | some s' =>
      have : Decidable (Meets step guard s' as) := decidableMeets s' as
      decidable_of_iff (guard s a ∧ Meets step guard s' as) (by simp [Meets, h])
    | none => decidable_of_iff (guard s a) (by simp [Meets, h])

@[simp]
lemma run_nil (s : σ) : run step s [] = some s := rfl

lemma run_cons_eq_some {s t : σ} {a : α} {as : List α} :
    run step s (a :: as) = some t ↔ ∃ s', step s a = some s' ∧ run step s' as = some t := by
  simp only [run]
  cases step s a with
  | none => simp
  | some s' => simp

lemma run_append {s t : σ} {as bs : List α} :
    run step s (as ++ bs) = some t ↔ ∃ s', run step s as = some s' ∧ run step s' bs = some t := by
  induction as generalizing s with
  | nil => simp
  | cons a as ih =>
    simp only [List.cons_append, run_cons_eq_some, ih]
    constructor
    · rintro ⟨s₁, hstep, s₂, h1, h2⟩
      exact ⟨s₂, ⟨s₁, hstep, h1⟩, h2⟩
    · rintro ⟨s₂, ⟨s₁, hstep, h1⟩, h2⟩
      exact ⟨s₁, hstep, s₂, h1, h2⟩

lemma meets_cons {s s' : σ} {a : α} {as : List α} (hstep : step s a = some s') :
    Meets step guard s (a :: as) ↔ guard s a ∧ Meets step guard s' as := by
  simp [Meets, hstep]

lemma meets_append {s s' : σ} {as bs : List α} (hrun : run step s as = some s') :
    Meets step guard s (as ++ bs) ↔ Meets step guard s as ∧ Meets step guard s' bs := by
  induction as generalizing s with
  | nil =>
    obtain rfl : s = s' := by simpa using hrun
    simp [Meets]
  | cons a as ih =>
    obtain ⟨s₁, hstep, hrest⟩ := run_cons_eq_some.mp hrun
    rw [List.cons_append, meets_cons hstep, meets_cons hstep, ih hrest, and_assoc]

lemma meets_of_forall (h : ∀ s a, guard s a) (s : σ) (as : List α) : Meets step guard s as := by
  induction as generalizing s with
  | nil => trivial
  | cons a as ih =>
    refine ⟨h s a, ?_⟩
    cases step s a with
    | none => trivial
    | some s' => exact ih s'

lemma Meets.and_mem {q : α → Prop} {s : σ} {as : List α} (h : Meets step guard s as)
    (hq : ∀ a ∈ as, q a) : Meets step (fun s a => guard s a ∧ q a) s as := by
  induction as generalizing s with
  | nil => trivial
  | cons a as ih =>
    refine ⟨⟨h.1, hq a List.mem_cons_self⟩, ?_⟩
    have hrest := h.2
    cases hstep : step s a with
    | none => trivial
    | some s' =>
      rw [hstep] at hrest
      exact ih hrest fun a' ha' => hq a' (List.mem_cons_of_mem _ ha')

/-- A property preserved by every step that meets the condition holds after every run whose
steps meet it.

**Proof sketch.** Induction on the actions: the first step establishes the property for the
state from which the rest of the run starts. -/
theorem invariant_of_step {inv : σ → Prop}
    (hinv : ∀ s a s', inv s → guard s a → step s a = some s' → inv s') {s t : σ} {as : List α}
    (hs : inv s) (hrun : run step s as = some t) (hmeets : Meets step guard s as) : inv t := by
  induction as generalizing s with
  | nil =>
    obtain rfl : s = t := by simpa using hrun
    exact hs
  | cons a as ih =>
    obtain ⟨s', hstep, hrest⟩ := run_cons_eq_some.mp hrun
    rw [meets_cons hstep] at hmeets
    exact ih (hinv s a s' hs hmeets.1 hstep) hrest hmeets.2

end Runs
