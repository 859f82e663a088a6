import Mathlib.Data.Nat.Notation

/-!
# Fallible steps on a state

A fallible step changes a state and says whether it succeeded; the change stays when it did not.
Steps are composed until the first one that fails, and reasoned about with two postconditions, one
for each way a step can end.

## Main results

* `Fallible.Ends.andThen`: the rule of composition.
-/

namespace Fallible

variable {σ ε : Type*}

/-- The second step is taken when the first one succeeded. -/
def andThen (first : σ × Except ε Unit) (next : σ → σ × Except ε Unit) : σ × Except ε Unit :=
  match first.2 with
  | .ok _ => next first.1
  | .error error => (first.1, .error error)

@[simp]
lemma andThen_ok (state : σ) (value : Unit) (next : σ → σ × Except ε Unit) :
    andThen (state, .ok value) next = next state := rfl

@[simp]
lemma andThen_error (state : σ) (error : ε) (next : σ → σ × Except ε Unit) :
    andThen (state, .error error) next = (state, .error error) := rfl

/-- A step ended well in a state with `good`, or with an error in a state with `bad`. -/
def Ends (good bad : σ → Prop) (outcome : σ × Except ε Unit) : Prop :=
  match outcome.2 with
  | .ok _ => good outcome.1
  | .error _ => bad outcome.1

variable {good bad good' bad' : σ → Prop}

@[simp]
lemma ends_ok {state : σ} :
    Ends good bad ((state, .ok ()) : σ × Except ε Unit) ↔ good state := Iff.rfl

@[simp]
lemma ends_error {state : σ} {error : ε} : Ends good bad (state, .error error) ↔ bad state := Iff.rfl

lemma Ends.imp {outcome : σ × Except ε Unit} (h : Ends good bad outcome)
    (hgood : ∀ state, good state → good' state) (hbad : ∀ state, bad state → bad' state) :
    Ends good' bad' outcome := by
  obtain ⟨state, result⟩ := outcome
  cases result with
  | ok _ => exact hgood state h
  | error _ => exact hbad state h

/-- What the first step makes good is all that the second one may rely on. -/
lemma Ends.andThen {m : σ → Prop} {first : σ × Except ε Unit} {next : σ → σ × Except ε Unit}
    (h : Ends m bad first) (hnext : ∀ state, m state → Ends good bad (next state)) :
    Ends good bad (andThen first next) := by
  obtain ⟨state, result⟩ := first
  cases result with
  | ok _ => exact hnext state h
  | error _ => exact h

/-! ## Interruptions -/

/-- A state, and the number of steps that are still taken before an interruption, if there is one. -/
structure Interruptible (σ : Type*) where
  state : σ
  remaining : Option ℕ

/-- Take a step unless an interruption comes before it. -/
def attempt (interruption : ε) (step : σ → Except ε σ) (current : Interruptible σ) :
    Interruptible σ × Except ε Unit :=
  match current.remaining with
  | some 0 => (current, .error interruption)
  | remaining =>
    match step current.state with
    | .ok state => (⟨state, remaining.map (· - 1)⟩, .ok ())
    | .error error => (current, .error error)

@[simp]
lemma attempt_none (interruption : ε) (step : σ → Except ε σ) (state : σ) :
    attempt interruption step ⟨state, none⟩ =
      match step state with
      | .ok state' => (⟨state', none⟩, .ok ())
      | .error error => (⟨state, none⟩, .error error) := rfl

lemma attempt_ends {interruption : ε} {step : σ → Except ε σ} {current : Interruptible σ}
    {good bad : Interruptible σ → Prop} (hbad : bad current)
    (hgood : ∀ state remaining, step current.state = .ok state → good ⟨state, remaining⟩) :
    Ends good bad (attempt interruption step current) := by
  unfold attempt
  split
  · exact hbad
  · split
    next state hstep => exact hgood state _ hstep
    · exact hbad

end Fallible
