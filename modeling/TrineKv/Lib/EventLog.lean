import Mathlib.Data.List.Infix

/-!
# Logs of events

What a program did, in order, is a list of events. A safety property of the program says something
about every moment of the log, or says that every event is justified by what was logged before it;
both are proved one event at a time.

## Main results

* `EventLog.always_concat`, `EventLog.justified_concat`.
-/

namespace EventLog

open List

variable {ε : Type*} {log : List ε}

/-- The property `p` holds of the log at every moment: of every initial part of it. -/
def Always (p : List ε → Prop) (log : List ε) : Prop := ∀ front, front <+: log → p front

def Justified (p : List ε → ε → Prop) (log : List ε) : Prop :=
  ∀ before event after, log = before ++ event :: after → p before event

lemma always_nil {p : List ε → Prop} : Always p [] ↔ p [] := by
  constructor
  · intro h
    exact h [] (prefix_refl [])
  · intro h front hfront
    rwa [prefix_nil.mp hfront]

lemma always_concat {p : List ε → Prop} {event : ε} :
    Always p (log ++ [event]) ↔ Always p log ∧ p (log ++ [event]) := by
  constructor
  · intro h
    exact ⟨fun front hfront => h front (hfront.trans (prefix_append _ _)),
      h _ (prefix_refl _)⟩
  · rintro ⟨h, hlast⟩ front hfront
    rcases prefix_concat_iff.mp hfront with rfl | hfront
    · exact hlast
    · exact h front hfront

lemma justified_nil {p : List ε → ε → Prop} : Justified p [] := by
  intro before event after h
  simp at h

lemma justified_concat {p : List ε → ε → Prop} {event : ε} :
    Justified p (log ++ [event]) ↔ Justified p log ∧ p log event := by
  constructor
  · intro h
    refine ⟨?_, h log event [] rfl⟩
    intro before first after hlog
    refine h before first (after ++ [event]) ?_
    rw [hlog, append_assoc, cons_append]
  · rintro ⟨h, hlast⟩ before first after hlog
    rcases eq_nil_or_concat after with rfl | ⟨middle, last, rfl⟩
    · obtain ⟨rfl, rfl⟩ := append_inj' hlog rfl |>.imp id singleton_inj.mp
      exact hlast
    · rw [concat_eq_append, ← cons_append, ← append_assoc] at hlog
      obtain ⟨hfront, -⟩ := append_inj' hlog rfl
      exact h before first middle hfront

end EventLog
