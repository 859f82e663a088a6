import Mathlib.Data.List.MinMax

/-!
# The newest element decides

Elements carry stamps from a linear order, and an answer depends on the element with the greatest
stamp only. If an observer sees a part of the elements, its answer is the right one exactly when
the newest element is in that part, or happens to give the same answer as the newest element of
the part.

## Main results

* `Newest.answer_eq_iff`: when two answers agree.
-/

namespace Newest

open List

variable {α β γ : Type*} [LinearOrder β] {stamp : α → β}

lemma argmax_eq_some {l : List α} {a : α} (ha : a ∈ l) (hmax : ∀ b ∈ l, stamp b ≤ stamp a)
    (hinj : ∀ b ∈ l, stamp b = stamp a → b = a) : l.argmax stamp = some a := by
  cases h : l.argmax stamp with
  | none => simp [argmax_eq_none.mp h] at ha
  | some m =>
    have hm : m ∈ l := argmax_mem h
    have hle : stamp a ≤ stamp m := le_of_mem_argmax ha h
    rw [hinj m hm (le_antisymm (hmax m hm) hle)]

lemma le_of_argmax_eq_some {l : List α} {a : α} (h : l.argmax stamp = some a) :
    a ∈ l ∧ ∀ b ∈ l, stamp b ≤ stamp a :=
  ⟨argmax_mem h, fun _ hb => le_of_mem_argmax hb h⟩

/-- The answer from a part of the elements is the answer from all of them exactly when every
newest element is in the part or gives the same answer as the part. -/
theorem answer_eq_iff (answer : Option α → γ) {part all : List α} (hsub : part ⊆ all)
    (hinj : ∀ a ∈ all, ∀ b ∈ all, stamp a = stamp b → a = b) :
    answer (part.argmax stamp) = answer (all.argmax stamp) ↔
      ∀ a ∈ all, (∀ b ∈ all, stamp b ≤ stamp a) →
        a ∈ part ∨ answer (some a) = answer (part.argmax stamp) := by
  constructor
  · intro h a ha hmax
    rw [argmax_eq_some ha hmax fun b hb heq => hinj b hb a ha heq] at h
    exact .inr h.symm
  · intro h
    cases hall : all.argmax stamp with
    | none =>
      have hnil : all = [] := argmax_eq_none.mp hall
      have hpart : part = [] := eq_nil_iff_forall_not_mem.mpr fun a ha => by
        simpa [hnil] using hsub ha
      rw [hpart, argmax_nil]
    | some a =>
      obtain ⟨ha, hmax⟩ := le_of_argmax_eq_some hall
      rcases h a ha hmax with hpart | heq
      · rw [argmax_eq_some hpart (fun b hb => hmax b (hsub hb))
          fun b hb heq => hinj b (hsub hb) a ha heq]
      · exact heq.symm

end Newest
