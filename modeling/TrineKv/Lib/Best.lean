import Mathlib.Data.List.Sort

/-!
# The best of what has been seen

A search that visits elements one after another and keeps the one of least rank holds, at every
moment, a best element of those it has seen. Elements may be left out without being looked at
when something already seen is at least as good as each of them.

## Main results

* `Best.IsBest.keep`, `Best.IsBest.skip`: the best element after one more has been seen or left out.
* `Best.isBest_find?`: in a sorted list the first element is best.
-/

namespace Best

open List

variable {α β : Type*} [LinearOrder β] (rank : α → β)

/-- Keep the element of smaller rank; the current one stays on a tie. -/
def keep (current : Option α) (a : α) : Option α :=
  match current with
  | none => some a
  | some c => if rank a < rank c then some a else some c

def IsBest (choice : Option α) (l : List α) : Prop :=
  match choice with
  | none => l = []
  | some a => a ∈ l ∧ ∀ b ∈ l, rank a ≤ rank b

variable {rank}

lemma isBest_nil : IsBest rank none ([] : List α) := rfl

lemma IsBest.congr {choice : Option α} {l m : List α} (h : IsBest rank choice l)
    (hmem : ∀ a, a ∈ l ↔ a ∈ m) : IsBest rank choice m := by
  cases choice with
  | none =>
    have hl : l = [] := h
    exact eq_nil_iff_forall_not_mem.mpr fun a ha => by simpa [hl] using (hmem a).mpr ha
  | some a => exact ⟨(hmem a).mp h.1, fun b hb => h.2 b ((hmem b).mpr hb)⟩

lemma IsBest.keep {choice : Option α} {l m : List α} {a : α} (h : IsBest rank choice l)
    (ha : IsBest rank (some a) m) : IsBest rank (keep rank choice a) (l ++ m) := by
  cases choice with
  | none =>
    have hl : l = [] := h
    rw [hl, nil_append]
    exact ha
  | some c =>
    rw [Best.keep]
    split_ifs with hlt
    · refine ⟨mem_append_right _ ha.1, fun b hb => ?_⟩
      rcases mem_append.mp hb with hb | hb
      · exact hlt.le.trans (h.2 b hb)
      · exact ha.2 b hb
    · refine ⟨mem_append_left _ h.1, fun b hb => ?_⟩
      rcases mem_append.mp hb with hb | hb
      · exact h.2 b hb
      · exact (not_lt.mp hlt).trans (ha.2 b hb)

lemma IsBest.skip {choice : Option α} {l m : List α} (h : IsBest rank choice l)
    (hm : ∀ b ∈ m, ∃ a ∈ l, rank a ≤ rank b) : IsBest rank choice (l ++ m) := by
  cases choice with
  | none =>
    have hl : l = [] := h
    have hnil : m = [] := eq_nil_iff_forall_not_mem.mpr fun b hb => by
      obtain ⟨a, ha, -⟩ := hm b hb
      simp [hl] at ha
    rw [hl, hnil]
    exact isBest_nil
  | some c =>
    refine ⟨mem_append_left _ h.1, fun b hb => ?_⟩
    rcases mem_append.mp hb with hb | hb
    · exact h.2 b hb
    · obtain ⟨a, ha, hab⟩ := hm b hb
      exact (h.2 a ha).trans hab

lemma isBest_find? {l : List α} (h : l.Pairwise fun a b => rank a ≤ rank b) (p : α → Bool) :
    IsBest rank (l.find? p) (l.filter p) := by
  induction l with
  | nil => exact isBest_nil
  | cons a l ih =>
    obtain ⟨ha, hl⟩ := pairwise_cons.mp h
    by_cases hp : p a = true
    · rw [List.find?_cons_of_pos hp, filter_cons_of_pos hp]
      refine ⟨mem_cons_self, fun b hb => ?_⟩
      rcases mem_cons.mp hb with rfl | hb
      · exact le_rfl
      · exact ha b (mem_filter.mp hb).1
    · rw [List.find?_cons_of_neg hp, filter_cons_of_neg hp]
      exact ih hl

end Best
