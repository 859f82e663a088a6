import Mathlib.Data.List.Basic

/-!
# Growing a list until it is closed

A selection grows in rounds. Each round goes over the candidates that belong to the selection so
far and appends those that are missing. The rounds end when one of them appends nothing. Since the
candidates come from a finite list, one round more than the length of that list is enough.

## Main results

* `Closure.mem_saturate_of_mem`, `Closure.candidates_subset_saturate`: the result has the selection
  and all its candidates.
* `Closure.forall_mem_saturate`: what holds of selections and candidates holds of the result.
-/

namespace Closure

open List

variable {α : Type*} [DecidableEq α]

def appendNew (selected : List α) (elements : List α) : List α :=
  elements.foldl (fun selected a => if a ∈ selected then selected else selected ++ [a]) selected

/-- Append the candidates of the selection, again and again until none is missing. -/
def saturate (candidates : List α → List α) : ℕ → List α → List α
  | 0, selected => selected
  | fuel + 1, selected =>
    let grown := appendNew selected (candidates selected)
    if grown.length = selected.length then selected else saturate candidates fuel grown

lemma mem_appendNew {selected elements : List α} {a : α} :
    a ∈ appendNew selected elements ↔ a ∈ selected ∨ a ∈ elements := by
  induction elements generalizing selected with
  | nil => simp [appendNew]
  | cons b elements ih =>
    have hcons : appendNew selected (b :: elements) =
        appendNew (if b ∈ selected then selected else selected ++ [b]) elements := rfl
    rw [hcons, ih, mem_cons]
    split_ifs with hb
    · constructor
      · rintro (h | h)
        · exact .inl h
        · exact .inr (Or.inr h)
      · rintro (h | rfl | h)
        · exact .inl h
        · exact .inl hb
        · exact .inr h
    · rw [mem_append, mem_singleton, or_assoc]

lemma prefix_appendNew (selected elements : List α) :
    selected <+: appendNew selected elements := by
  induction elements generalizing selected with
  | nil => exact prefix_rfl
  | cons b elements ih =>
    have hcons : appendNew selected (b :: elements) =
        appendNew (if b ∈ selected then selected else selected ++ [b]) elements := rfl
    rw [hcons]
    refine List.IsPrefix.trans ?_ (ih _)
    split_ifs
    · exact prefix_rfl
    · exact prefix_append _ _

section Saturate

variable {candidates : List α → List α} {selected : List α} {fuel : ℕ}

lemma mem_saturate_of_mem {a : α} (h : a ∈ selected) : a ∈ saturate candidates fuel selected := by
  induction fuel generalizing selected with
  | zero => exact h
  | succ fuel ih =>
    simp only [saturate]
    split_ifs
    · exact h
    · exact ih (mem_appendNew.mpr (Or.inl h))

lemma forall_mem_saturate {p : α → Prop} (hselected : ∀ a ∈ selected, p a)
    (hcandidates : ∀ l a, a ∈ candidates l → p a) :
    ∀ a ∈ saturate candidates fuel selected, p a := by
  induction fuel generalizing selected with
  | zero => exact hselected
  | succ fuel ih =>
    simp only [saturate]
    split_ifs
    · exact hselected
    · refine ih fun a ha => ?_
      rcases mem_appendNew.mp ha with ha | ha
      · exact hselected a ha
      · exact hcandidates selected a ha

/-- A round that appends something leaves fewer elements of a finite list missing. -/
lemma length_missing_lt {everything elements : List α} (hsub : elements ⊆ everything)
    (hgrows : (appendNew selected elements).length ≠ selected.length) :
    (everything.filter (· ∉ appendNew selected elements)).length <
      (everything.filter (· ∉ selected)).length := by
  obtain ⟨a, ha, hout⟩ : ∃ a ∈ elements, a ∉ selected := by
    by_contra hall
    push Not at hall
    refine hgrows (congrArg List.length ?_)
    clear hgrows hsub
    induction elements with
    | nil => rfl
    | cons b elements ih =>
      obtain ⟨hb, hrest⟩ := forall_mem_cons.mp hall
      have hcons : appendNew selected (b :: elements) =
          appendNew (if b ∈ selected then selected else selected ++ [b]) elements := rfl
      rw [hcons, if_pos hb, ih hrest]
  have hfilter : everything.filter (· ∉ appendNew selected elements) =
      (everything.filter (· ∉ selected)).filter (· ∉ appendNew selected elements) := by
    rw [filter_filter]
    refine filter_congr fun x _ => ?_
    rw [Bool.eq_iff_iff]
    simp only [decide_eq_true_eq, Bool.and_eq_true, mem_appendNew, not_or]
    tauto
  rw [hfilter, length_filter_lt_length_iff_exists]
  exact ⟨a, mem_filter.mpr ⟨hsub ha, decide_eq_true hout⟩,
    by simpa using mem_appendNew.mpr (Or.inr ha)⟩

/-- With enough fuel the selection is closed: all its candidates are selected.

**Proof sketch.** Every round that is not the last one selects an element of a finite list that was
missing. -/
theorem candidates_subset_saturate {everything : List α}
    (hcandidates : ∀ l, candidates l ⊆ everything) (hfuel : everything.length < fuel) :
    candidates (saturate candidates fuel selected) ⊆ saturate candidates fuel selected := by
  have hmissing : (everything.filter (· ∉ selected)).length < fuel :=
    Nat.lt_of_le_of_lt (length_filter_le _ _) hfuel
  clear hfuel
  induction fuel generalizing selected with
  | zero => omega
  | succ fuel ih =>
    simp only [saturate]
    split_ifs with hlength
    · intro a ha
      have heq : selected = appendNew selected (candidates selected) :=
        (prefix_appendNew _ _).eq_of_length hlength.symm
      rw [heq]
      exact mem_appendNew.mpr (Or.inr ha)
    · have hlt := length_missing_lt (hcandidates selected) hlength
      exact ih (by omega)

end Saturate

end Closure
